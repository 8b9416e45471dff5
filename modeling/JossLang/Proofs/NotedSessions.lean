import JossLang.Proofs.ErrorReports

/-!
# Sessions that are noted

A session can carry something beside its world that nothing registered can see or change, but for handlers that watch
the session (`Setup.beside`). What is computed comes to the same as without it, and what is said of a state and of what
stands beside it is kept (`noted_performs`).
-/

namespace JossLang

variable {ω β α γ : Type}

/-- The session with something beside its world, in which texts are noted that the sink takes, and with handlers that come
first. -/
def Setup.beside (setup : Setup ω) (typed : String → β → β) (watchers : List (Handler (ω × β)) := []) : Setup (ω × β) where
  file := setup.file
  verbose := setup.verbose
  sparse := setup.sparse
  registry :=
    { metadata := setup.registry.metadata
      functions := setup.registry.functions.map AddedFunction.beside
      handlers := watchers ++ setup.registry.handlers.map Handler.beside
      rules := setup.registry.rules.map StepRule.beside }
  sink text world :=
    match setup.sink text world.1 with
    | (.ok (), w) => (.ok (), w, typed text world.2)
    | (.error message, w) => (.error message, w, world.2)
  limits := setup.limits
  elementary := setup.elementary

section
variable (setup : Setup ω) (typed : String → β → β) {watchers : List (Handler (ω × β))}

theorem record_beside (action : Action) (pos : Location) :
    record (setup.beside typed watchers) action pos = Run.beside (record setup action pos) := by
  refine Run.ext_beside fun s b => ?_
  let s' := (s.record setup.verbose action pos).beside b
  show (blame .ruleFailed _ (runRules _ (setup.registry.rules.map StepRule.beside))).run s' = _
  rw [runRules_beside]
  exact congrFun (Run.beside_blame _ (fun _ => some pos) _) s'

theorem notify_beside {notice : Notice} (hwatchers : ∀ w ∈ watchers, w.event ≠ notice.event) :
    notify (setup.beside typed watchers) notice = Run.beside (notify setup notice) := by
  have hnone : watchers.filter (·.event = notice.event) = [] :=
    List.filter_eq_nil_iff.mpr fun w hw => decide_eq_false (hwatchers w hw) ▸ Bool.false_ne_true
  have hhandlers : (setup.beside typed watchers).registry.handlersOf notice.event =
      (setup.registry.handlersOf notice.event).map Handler.beside := by
    rw [Registry.handlersOf, Setup.beside, List.filter_append, hnone, List.nil_append]
    exact List.filter_map ..
  rw [notify, notify, hhandlers, runHandlers_beside]
  exact Run.beside_blame _ (·.log.lastPos?) _

variable (hwatchers : ∀ w ∈ watchers, w.event ≠ .onError)
include hwatchers

theorem report_beside (e : LineError) (s : State ω) (b : β) :
    report (setup.beside typed watchers) e (s.beside b) = ((report setup e s).1, (report setup e s).2.beside b) := by
  rw [report, report, notify_beside setup typed hwatchers, Run.beside_run]
  rcases (notify setup (.onError e)).run s with ⟨(_ | _) | _, t⟩ <;> rfl

theorem settle_beside (f : Failure) (s : State ω) (b : β) :
    settle (setup.beside typed watchers) f (s.beside b) = ((settle setup f s).1, (settle setup f s).2.beside b) := by
  rcases f with (e | e | (_ | _ | _)) | message
  · exact report_beside setup typed hwatchers _ s b
  · exact report_beside setup typed hwatchers _ s b
  all_goals rfl

end

/-! ## Sessions and noted ones -/

namespace Lockstep

def noted (setup : Setup ω) (setup' : Setup (ω × β)) (I : State ω → β → Prop) (F : Failure → State ω → β → Prop) :
    Lockstep ω (ω × β) where
  left := setup
  right := setup'
  states s s' := ∃ b, s' = s.beside b ∧ I s b
  failed f s s' := ∃ b, s' = s.beside b ∧ F f s b
  excused _ _ := False

section
variable {setup : Setup ω} {setup' : Setup (ω × β)} {I I' : State ω → β → Prop} {F : Failure → State ω → β → Prop}

theorem noted_outcome {m : Run ω α} {s : State ω} {b : β} (h : Ended (I · b) (fun f t => F f t b) (m.run s)) :
    (noted setup setup' I F).Outcome (m.run s) ((Run.beside m).run (s.beside b)) := by
  rw [Run.beside_run]
  generalize m.run s = r at h ⊢
  cases h with
  | ok ht => exact .ok ⟨b, rfl, ht⟩
  | error ht => exact .error ⟨b, rfl, ht⟩

theorem noted_agree {m : Run ω α} (h : ∀ b, Stays (I · b) (fun f t => F f t b) m) :
    (noted setup setup' I F).Agree m (Run.beside m) := by
  intro s s' hs
  obtain ⟨b, rfl, hb⟩ := hs
  exact noted_outcome (h b s hb)

theorem noted_bind {m : Run ω α} {m' : Run (ω × β) α} {f : α → Run ω γ} {f' : α → Run (ω × β) γ} {s : State ω}
    {s' : State (ω × β)} (h : (noted setup setup' I F).Outcome (m.run s) (m'.run s'))
    (hf : ∀ a t b, I t b → (noted setup setup' I' F).Outcome ((f a).run t) ((f' a).run (t.beside b))) :
    (noted setup setup' I' F).Outcome ((m >>= f).run s) ((m' >>= f').run s') := by
  rw [run_bind, run_bind]
  generalize m.run s = r at h
  generalize m'.run s' = r' at h
  cases h with
  | ok ht =>
    obtain ⟨b, rfl, hb⟩ := ht
    exact hf _ _ b hb
  | error ht => exact .error ht
  | excused ht => exact ht.elim

theorem noted_mono {F' : Failure → State ω → β → Prop} {r : Except Failure α × State ω} {r' : Except Failure α × State (ω × β)}
    (h : (noted setup setup' I F).Outcome r r') (hI : ∀ t b, I t b → I' t b) (hF : ∀ f t b, F f t b → F' f t b) :
    (noted setup setup' I' F').Outcome r r' := by
  cases h with
  | ok ht =>
    obtain ⟨b, rfl, hb⟩ := ht
    exact .ok ⟨b, rfl, hI _ b hb⟩
  | error ht =>
    obtain ⟨b, rfl, hb⟩ := ht
    exact .error ⟨b, rfl, hF _ _ b hb⟩
  | excused ht => exact ht.elim

/-- What is said of states and of what is noted is kept by what a verb does, when it is kept by what is registered. -/
theorem noted_performs {typed : String → β → β} {watchers : List (Handler (ω × β))}
    (hwatchers : ∀ w ∈ watchers, w.event ≠ .output) (hevaluates : ∀ b, setup.Evaluates (I · b) fun f t => F f t b)
    (houtput : ∀ text b, Stays (I · b) (fun f t => F f t b) (notify setup (.output text)))
    (henvironment : ∀ g, Environment.Change g → ∀ s b, I s b → I { s with environment := g s.environment } b)
    (htaken : ∀ text s b, I s b →
      I { s with world := (setup.sink text s.world).2, typed := text :: s.typed } (typed text b))
    (hrefused : ∀ text message s b, I s b → (setup.sink text s.world).1 = .error message →
      F (.foreign message) { s with world := (setup.sink text s.world).2 } b)
    (hmissing : ∀ pos goal f s b, I s b → s.program.stepsOf pos goal = .error f → F f s b) :
    (noted setup (setup.beside typed watchers) I F).Performs where
  limits := .inl rfl
  elementary := rfl
  functions := List.forall₂_map_right_iff.mpr <| List.forall₂_same.mpr fun g hg =>
    ⟨rfl, rfl, fun args pos => noted_agree fun b => (hevaluates b).functions g hg args pos⟩
  raised := by
    rintro cause pos s _ ⟨b, rfl, hs⟩
    exact ⟨b, rfl, (hevaluates b).raised cause pos s hs⟩
  limit := by
    rintro s _ ⟨b, rfl, hs⟩
    exact ⟨b, rfl, (hevaluates b).limit s hs⟩
  endless := by
    rintro s _ ⟨b, rfl, hs⟩
    exact ⟨b, rfl, (hevaluates b).endless s hs⟩
  names := by
    rintro s _ ⟨b, rfl, hs⟩ isBuiltin x
    rfl
  elements := by
    refine agree_elements ?_ ?_
    · rintro s _ ⟨b, rfl, hs⟩
      rfl
    · rintro cause pos s _ ⟨b, rfl, hs⟩
      exact ⟨b, rfl, (hevaluates b).raised cause pos s hs⟩
  marks := by
    rintro s _ ⟨b, rfl, hs⟩
    exact ⟨rfl, b, rfl, (hevaluates b).marks s hs⟩
  program := by
    rintro s _ ⟨b, rfl, hs⟩
    exact ⟨rfl, fun pos goal f h => ⟨b, rfl, hmissing pos goal f s b hs h⟩⟩
  environment := by
    rintro g hg s _ ⟨b, rfl, hs⟩
    exact ⟨b, rfl, henvironment g hg s b hs⟩
  output text := by
    show (noted setup (setup.beside typed watchers) I F).Agree (notify setup (.output text))
      (notify (setup.beside typed watchers) (.output text))
    rw [notify_beside setup typed hwatchers]
    exact noted_agree (houtput text)
  delivered text := by
    rintro s _ ⟨b, rfl, hs⟩
    have htaken := htaken text s b hs
    have hrefused := fun message => hrefused text message s b hs
    have hsink : (setup.beside typed watchers).sink text (s.world, b) = match setup.sink text s.world with
      | (.ok (), w) => (.ok (), w, typed text b)
      | (.error message, w) => (.error message, w, b) := rfl
    show (noted setup (setup.beside typed watchers) I F).Outcome ((deliver setup text).run s)
      ((deliver (setup.beside typed watchers) text).run (s.beside b))
    rw [deliver_run, deliver_run, State.beside, hsink]
    generalize setup.sink text s.world = r at htaken hrefused ⊢
    obtain ⟨message | _, w⟩ := r
    · exact .error ⟨b, rfl, hrefused message rfl⟩
    · exact .ok ⟨typed text b, rfl, htaken⟩

end

end Lockstep

end JossLang
