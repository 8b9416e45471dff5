import JossLang.Proofs.ErrorContainment

/-!
# What handlers of errors are told

A session can be recorded: one more handler notes, beside the world, the errors that handlers are told of. Nothing
else changes (`evaluateLine_recording`). If no handler of errors fails, what is noted is what evaluation comes to,
unless a line is stopped by something else than an error of the language: `evaluateText_told`.
-/

namespace JossLang

variable {ω α β γ : Type}

/-! ## Recorded sessions -/

def State.beside (s : State ω) (b : β) : State (ω × β) := { s with world := (s.world, b) }

def State.first (s : State (ω × β)) : State ω := { s with world := s.world.1 }

def Run.beside (m : Run ω α) : Run (ω × β) α := fun s =>
  match m.run s.first with
  | (result, t) => (result, t.beside s.world.2)

def AddedFunction.beside (g : AddedFunction ω) : AddedFunction (ω × β) :=
  { g with run := fun args pos => Run.beside (g.run args pos) }

def Handler.beside (h : Handler ω) : Handler (ω × β) := { h with run := fun notice => Run.beside (h.run notice) }

def StepRule.beside (r : StepRule ω) : StepRule (ω × β) := { r with run := fun notice => Run.beside (r.run notice) }

def recorder : Handler (ω × List LineError) where
  event := .onError
  priority := 0
  extension := "recorder"
  run
    | .onError e => modify fun s => { s with world := (s.world.1, s.world.2 ++ [e]) }
    | _ => pure ()

/-- The session with a handler that notes the errors it is told of. -/
def Setup.recording (setup : Setup ω) : Setup (ω × List LineError) where
  file := setup.file
  verbose := setup.verbose
  sparse := setup.sparse
  registry :=
    { metadata := setup.registry.metadata
      functions := setup.registry.functions.map AddedFunction.beside
      handlers := recorder :: setup.registry.handlers.map Handler.beside
      rules := setup.registry.rules.map StepRule.beside }
  sink text world :=
    let (result, w) := setup.sink text world.1
    (result, w, world.2)
  limits := setup.limits
  elementary := setup.elementary

theorem Run.beside_run (m : Run ω α) (s : State ω) (b : β) :
    (Run.beside m).run (s.beside b) = ((m.run s).1, (m.run s).2.beside b) := rfl

theorem Run.ext_beside {m m' : Run (ω × β) α} (h : ∀ (s : State ω) b, m.run (s.beside b) = m'.run (s.beside b)) : m = m' :=
  funext fun s => h s.first s.world.2

theorem Run.beside_bind (m : Run ω α) (f : α → Run ω γ) :
    (Run.beside m : Run (ω × β) α) >>= (fun a => Run.beside (f a)) = Run.beside (m >>= f) := by
  refine Run.ext_beside fun s b => ?_
  rw [run_bind, Run.beside_run, Run.beside_run, run_bind]
  rcases m.run s with ⟨_ | _, t⟩ <;> rfl

theorem Run.beside_blame (cause : String → Cause) (pos : State ω → Option Location) (m : Run ω α) :
    blame cause (fun s => pos s.first) (Run.beside m : Run (ω × β) α) = Run.beside (blame cause pos m) := by
  refine Run.ext_beside fun s b => ?_
  rw [blame_run, Run.beside_run, Run.beside_run, blame_run]
  rcases m.run s with ⟨(_ | _ | _) | _, t⟩ <;> rfl

theorem runHandlers_beside (notice : Notice) : ∀ hs : List (Handler ω),
    (runHandlers notice (hs.map Handler.beside) : Run (ω × β) Unit) = Run.beside (runHandlers notice hs)
  | [] => rfl
  | h :: hs => by
    rw [List.map_cons, runHandlers, runHandlers, runHandlers_beside notice hs]
    exact Run.beside_bind _ _

theorem runRules_beside (notice : StepNotice) : ∀ rs : List (StepRule ω),
    (runRules notice (rs.map StepRule.beside) : Run (ω × β) Unit) = Run.beside (runRules notice rs)
  | [] => rfl
  | r :: rs => by
    rw [List.map_cons, runRules, runRules, runRules_beside notice rs]
    by_cases hdue : notice.index % r.every = 0
    · rw [if_pos hdue, if_pos (show notice.index % r.beside.every = 0 from hdue)]
      exact Run.beside_bind _ _
    · rw [if_neg hdue, if_neg (show ¬ notice.index % r.beside.every = 0 from hdue)]

section
variable (setup : Setup ω)

theorem record_recording (action : Action) (pos : Location) :
    record setup.recording action pos = Run.beside (record setup action pos) := by
  refine Run.ext_beside fun s told => ?_
  let s' := (s.record setup.verbose action pos).beside told
  show (blame .ruleFailed _ (runRules _ (setup.registry.rules.map StepRule.beside))).run s' = _
  rw [runRules_beside]
  exact congrFun (Run.beside_blame _ (fun _ => some pos) _) s'

theorem handlersOf_recording (event : Event) : setup.recording.registry.handlersOf event =
    (if event = .onError then [recorder] else []) ++ (setup.registry.handlersOf event).map Handler.beside := by
  have hown : ∀ hs : List (Handler ω),
      (hs.map Handler.beside : List (Handler (ω × List LineError))).filter (·.event = event) =
        (hs.filter (·.event = event)).map Handler.beside := fun hs => List.filter_map ..
  rw [Registry.handlersOf, Registry.handlersOf, ← hown]
  show (recorder :: setup.registry.handlers.map Handler.beside).filter (·.event = event) = _
  cases event <;> rfl

theorem notify_recording {notice : Notice} (hnotice : notice.event ≠ .onError) :
    notify setup.recording notice = Run.beside (notify setup notice) := by
  rw [notify, notify, handlersOf_recording, if_neg hnotice, List.nil_append, runHandlers_beside]
  exact Run.beside_blame _ (·.log.lastPos?) _

theorem notify_recording_error (e : LineError) (s : State ω) (told : List LineError) :
    (notify setup.recording (.onError e)).run (s.beside told) =
      (Run.beside (notify setup (.onError e))).run (s.beside (told ++ [e])) := by
  rw [notify, notify, Notice.event, handlersOf_recording, if_pos rfl, List.singleton_append, runHandlers, runHandlers_beside]
  show (blame _ _ (Run.beside _)).run (s.beside (told ++ [e])) = _
  rw [← Run.beside_blame]
  rfl

end

/-! ## Lines -/

def Lockstep.recorded (setup : Setup ω) (told : List LineError) : Lockstep ω (ω × List LineError) where
  left := setup
  right := setup.recording
  states s s' := s' = s.beside told
  failed _ s s' := s' = s.beside told
  excused _ _ := False

namespace Lockstep

variable (setup : Setup ω) (told : List LineError)

theorem recorded_beside (m : Run ω α) : (recorded setup told).Agree m (Run.beside m) := by
  rintro s _ rfl
  rw [Run.beside_run]
  rcases m.run s with ⟨_ | _, t⟩
  · exact .error rfl
  · exact .ok rfl

theorem recorded_carries : (recorded setup told).Carries where
  limits := .inl rfl
  elementary := rfl
  functions := List.forall₂_map_right_iff.mpr <| List.forall₂_same.mpr fun _ _ =>
    ⟨rfl, rfl, fun _ _ => recorded_beside setup told _⟩
  raised _ _ _ _ := id
  limit _ _ := id
  endless _ _ := id
  names := by rintro s _ rfl _ _; rfl
  elements := agree_elements (by rintro s _ rfl; rfl) fun _ _ _ _ => id
  marks := by rintro s _ rfl; exact ⟨rfl, rfl⟩
  program := by rintro s _ rfl; exact ⟨rfl, fun _ _ _ _ => rfl⟩
  environment _ _ := by rintro s _ rfl; rfl
  notify notice hnotice := by
    rw [show (recorded setup told).right = setup.recording from rfl, notify_recording setup hnotice]
    exact recorded_beside setup told _
  delivered _ := agree_deliver (by rintro s _ rfl; rfl) (by rintro s _ rfl; rfl) (by rintro _ s _ rfl _; rfl)
  file := rfl
  lineNumber := by rintro s _ rfl; rfl
  unread _ _ _ := id
  record action pos := by
    rw [show (recorded setup told).right = setup.recording from rfl, record_recording]
    exact recorded_beside setup told _
  pushFrame _ _ := agree_modify <| by rintro s _ rfl; rfl
  popFrame := agree_modify <| by rintro s _ rfl; rfl
  store _ _ := by rintro s _ rfl; rfl

end Lockstep

def Setup.Stops (setup : Setup ω) (text : String) (s : State ω) (f : Failure) : Prop := ∃ t, setup.StopsIn text s f t

/-- The line is evaluated in the state, when its turn among the lines comes. -/
def Setup.Reaches (setup : Setup ω) (ls : List String) (s : State ω) (l : String) (t : State ω) : Prop :=
  ∃ before after, ls = before ++ l :: after ∧ (∀ e ∈ (evaluateLines setup before s).1, ¬ e.isStray) ∧
    t = (evaluateLines setup before s).2

def Setup.ReportsReturn (setup : Setup ω) : Prop :=
  ∀ h ∈ setup.registry.handlers, h.event = .onError → ∀ notice s, ∃ t, (h.run notice).run s = (.ok (), t)

theorem runText_recording (setup : Setup ω) (text : String) (s : State ω) (told : List LineError) :
    (runText setup.recording text).run (s.beside told) = (Run.beside (runText setup text)).run (s.beside told) := by
  have ho : (Lockstep.recorded setup told).Outcome ((runText setup text).run s)
      ((runText setup.recording text).run (s.beside told)) :=
    Lockstep.runText_agree (Lockstep.recorded_carries setup told) text s _ rfl
  rw [Run.beside_run]
  generalize (runText setup text).run s = r at ho ⊢
  generalize (runText setup.recording text).run (s.beside told) = r' at ho ⊢
  cases ho with
  | ok ht => rw [ht]
  | error ht => rw [ht]
  | excused ht => exact ht.elim

section
variable {setup : Setup ω}

theorem report_recording (e : LineError) (s : State ω) (told : List LineError) :
    report setup.recording e (s.beside told) = ((report setup e s).1, (report setup e s).2.beside (told ++ [e])) := by
  rw [report, report, notify_recording_error, Run.beside_run]
  rcases (notify setup (.onError e)).run s with ⟨(_ | _) | _, t⟩ <;> rfl

theorem evaluateUntilStray_cons {l : String} {s t : State ω} {e : Option LineError} (h : evaluateLine setup l s = (e, t))
    (ls : List String) : evaluateUntilStray setup (l :: ls) s = if e.any LineError.isStray then (e.toList, t) else
      (e.toList ++ (evaluateUntilStray setup ls t).1, (evaluateUntilStray setup ls t).2) := by
  rw [evaluateUntilStray, h]
  rcases e with _ | _ | _ | _ <;> rfl

theorem evaluateUntilStray_eq (ls : List String) {s : State ω} (h : ∀ e ∈ (evaluateLines setup ls s).1, ¬ e.isStray) :
    evaluateUntilStray setup ls s = evaluateLines setup ls s := by
  induction ls generalizing s with
  | nil => rfl
  | cons l ls ih =>
    rw [evaluateLines] at h
    rcases hline : evaluateLine setup l s with ⟨e, t⟩
    rw [hline] at h
    obtain ⟨hl, hls⟩ := List.forall_mem_append.mp h
    have hstray : ¬ e.any LineError.isStray := fun hany => by
      obtain ⟨x, hx, hstray⟩ := (Option.any_eq_true _ _).mp hany
      exact hl x (Option.mem_toList.mpr hx) hstray
    rw [evaluateUntilStray_cons hline, if_neg hstray, ih hls, evaluateLines, hline]

theorem notify_of_returns (notice : Notice) (hreturns : ∀ g ∈ setup.registry.handlers, g.event = notice.event →
    ∀ s, ∃ t, (g.run notice).run s = (.ok (), t)) (s : State ω) : ∃ t, (notify setup notice).run s = (.ok (), t) := by
  have hstays : Stays (fun _ => True) (fun _ _ => False) (notify setup notice) := by
    refine stays_notify (fun _ _ _ _ => id) fun g hg hevent => stays_of_failures fun s f t hrun => ?_
    obtain ⟨u, hu⟩ := hreturns g hg hevent s
    cases hu.symm.trans hrun
  have hend := hstays s trivial
  generalize (notify setup notice).run s = r at hend ⊢
  cases hend with
  | @ok _ t => exact ⟨t, rfl⟩
  | error ht => exact ht.elim

variable (hreturns : setup.ReportsReturn)
include hreturns

theorem Setup.ReportsReturn.notify (e : LineError) (s : State ω) :
    ∃ t, (JossLang.notify setup (.onError e)).run s = (.ok (), t) :=
  notify_of_returns (.onError e) (fun g hg hevent => hreturns g hg hevent _) s

theorem report_of_returns (e : LineError) (s : State ω) : (report setup e s).1 = e := by
  obtain ⟨t, hrun⟩ := hreturns.notify e s
  rw [report, hrun]

theorem settle_recording (f : Failure) (s : State ω) (told : List LineError) :
    ∃ heard, settle setup.recording f (s.beside told) = ((settle setup f s).1, (settle setup f s).2.beside (told ++ heard)) ∧
      heard.Sublist [(settle setup f s).1] ∧ (heard = [(settle setup f s).1] ↔ f.Known) := by
  have hsame : f.ending (s.beside told) = f.ending s := by rcases f with (_ | _ | (_ | _ | _)) | _ <;> rfl
  rcases settle_cases setup f s with ⟨hf, hsettle⟩ | ⟨hf, hsettle⟩ <;>
    rcases settle_cases setup.recording f (s.beside told) with ⟨hf', hsettle'⟩ | ⟨hf', hsettle'⟩
  · rw [hsettle, hsettle', hsame, report_recording, report_of_returns hreturns]
    exact ⟨_, rfl, .refl _, fun _ => hf, fun _ => rfl⟩
  · exact absurd hf hf'
  · exact absurd hf' hf
  · rw [hsettle, hsettle', hsame]
    exact ⟨[], by rw [List.append_nil], List.nil_sublist _, fun h => absurd h.symm (List.cons_ne_nil _ _),
      fun h => absurd h hf⟩

/-- **Lines** do as they do when they are recorded; what is noted is their error, if an error of the language stops them. -/
theorem evaluateLine_recording (text : String) (s : State ω) (told : List LineError) :
    ∃ heard, evaluateLine setup.recording text (s.beside told) =
        ((evaluateLine setup text s).1, (evaluateLine setup text s).2.beside (told ++ heard)) ∧
      heard.Sublist (evaluateLine setup text s).1.toList ∧
      (heard = (evaluateLine setup text s).1.toList ↔ ∀ f, setup.Stops text s f → f.Known) := by
  have hrun := runText_recording setup text { s with lineNumber := s.lineNumber + 1, frames := [.top] } told
  rw [Run.beside_run] at hrun
  unfold Setup.Stops Setup.StopsIn
  rw [evaluateLine, evaluateLine]
  dsimp only [State.beside] at hrun ⊢
  rw [hrun]
  generalize (runText setup text).run { s with lineNumber := s.lineNumber + 1, frames := [.top] } = r
  rcases r with ⟨f | _, t⟩
  · obtain ⟨heard, hsettle, hsublist, hheard⟩ := settle_recording hreturns f t told
    refine ⟨heard, ?_, hsublist, hheard.trans ⟨?_, fun h => h f ⟨t, rfl⟩⟩⟩
    · dsimp only [State.beside] at hsettle ⊢
      rw [hsettle]
    · rintro he _ ⟨_, ⟨⟩⟩
      exact he
  · exact ⟨[], by rw [List.append_nil], .refl _, fun _ => by rintro _ ⟨_, ⟨⟩⟩, fun _ => rfl⟩

omit hreturns in
theorem forall_reached_cons {P : String → State ω → Prop} (l : String) (ls : List String) (s : State ω) :
    (∀ x t, setup.Reaches (l :: ls) s x t → P x t) ↔ P l s ∧ ((∀ e ∈ (evaluateLine setup l s).1, ¬ e.isStray) →
      ∀ x t, setup.Reaches ls (evaluateLine setup l s).2 x t → P x t) := by
  have hall : ∀ before : List String, (∀ e ∈ (evaluateLines setup (l :: before) s).1, ¬ e.isStray) ↔
      (∀ e ∈ (evaluateLine setup l s).1, ¬ e.isStray) ∧
        ∀ e ∈ (evaluateLines setup before (evaluateLine setup l s).2).1, ¬ e.isStray := by
    intro before
    rw [evaluateLines]
    simp only [List.forall_mem_append, Option.mem_toList, Option.mem_def]
  constructor
  · intro h
    refine ⟨h l s ⟨[], ls, rfl, List.forall_mem_nil _, rfl⟩, ?_⟩
    rintro hl x _ ⟨before, after, rfl, hbefore, rfl⟩
    exact h x _ ⟨l :: before, after, rfl, (hall before).mpr ⟨hl, hbefore⟩, rfl⟩
  · rintro ⟨hfirst, hrest⟩ x _ ⟨before, after, hls, hbefore, rfl⟩
    cases before with
    | nil =>
      obtain ⟨rfl, -⟩ := List.cons.inj hls
      exact hfirst
    | cons y before =>
      obtain ⟨rfl, rfl⟩ := List.cons.inj hls
      obtain ⟨hl, hbefore⟩ := (hall before).mp hbefore
      exact hrest hl x _ ⟨before, after, rfl, hbefore, rfl⟩

/-- **Texts** do as they do when they are recorded; what is noted are their errors, if errors of the language only stop
the lines that are reached. -/
theorem evaluateUntilStray_recording (ls : List String) (s : State ω) (told : List LineError) :
    ∃ heard, evaluateUntilStray setup.recording ls (s.beside told) =
        ((evaluateUntilStray setup ls s).1, (evaluateUntilStray setup ls s).2.beside (told ++ heard)) ∧
      heard.Sublist (evaluateUntilStray setup ls s).1 ∧
      (heard = (evaluateUntilStray setup ls s).1 ↔ ∀ l t, setup.Reaches ls s l t → ∀ f, setup.Stops l t f → f.Known) := by
  induction ls generalizing s told with
  | nil =>
    refine ⟨[], ?_, .refl _, fun _ => ?_, fun _ => rfl⟩
    · rw [List.append_nil]
      rfl
    · rintro l _ ⟨before, after, h, -⟩
      exact absurd h.symm (List.append_ne_nil_of_right_ne_nil _ (List.cons_ne_nil _ _))
  | cons l ls ih =>
    obtain ⟨heard, hrecorded, hsublist, hheard⟩ := evaluateLine_recording hreturns l s told
    rw [forall_reached_cons (P := fun l t => ∀ f, setup.Stops l t f → f.Known), ← hheard]
    rcases hline : evaluateLine setup l s with ⟨e, t⟩
    rw [hline] at hrecorded hsublist
    obtain ⟨later, hlines, hsublist', hlater⟩ := ih t (told ++ heard)
    rw [← hlater, evaluateUntilStray_cons hrecorded, evaluateUntilStray_cons hline]
    by_cases hstray : e.any LineError.isStray
    · rw [if_pos hstray, if_pos hstray]
      obtain ⟨x, rfl, hx⟩ := (Option.any_eq_true _ _).mp hstray
      exact ⟨heard, rfl, hsublist, fun h => ⟨h, fun hl => absurd hx (hl x rfl)⟩, And.left⟩
    · rw [if_neg hstray, if_neg hstray, hlines]
      have hl : ∀ x ∈ e, ¬ x.isStray := by
        rintro x rfl hx
        exact hstray hx
      refine ⟨heard ++ later, by rw [List.append_assoc], hsublist.append hsublist', fun h => ?_, fun ⟨h, h'⟩ => ?_⟩
      · -- neither part is longer than what the lines come to, so neither is shorter
        have hlength := congrArg List.length h
        rw [List.length_append, List.length_append] at hlength
        have hle : heard.length ≤ e.toList.length := hsublist.length_le
        have hle' := hsublist'.length_le
        obtain ⟨hfirst, hrest⟩ := List.append_inj h (by omega)
        exact ⟨hfirst, fun _ => hrest⟩
      · rw [← h, ← h' hl]

end

/-! ## Texts -/

def Setup.Takes (setup : Setup ω) : Prop := ∀ text w, (setup.sink text w).1 = .ok ()

theorem Setup.Takes.deliver {setup : Setup ω} (h : setup.Takes) (text : String) (s : State ω) :
    (JossLang.deliver setup text).run s =
      (.ok (), { s with world := (setup.sink text s.world).2, typed := text :: s.typed }) := by
  have htaken := h text s.world
  rw [deliver_run]
  generalize setup.sink text s.world = r at htaken
  obtain ⟨_, w⟩ := r
  obtain rfl : _ = Except.ok () := htaken
  rfl

/-- Added functions raise errors of the language only, handlers and rules raise no error of no kind, and the sink takes
every text. -/
structure Setup.RaisesKnown (setup : Setup ω) : Prop where
  functions : ∀ g ∈ setup.registry.functions, ∀ args pos s f t, (g.run args pos).run s = (.error f, t) →
    (∀ message, f ≠ .foreign message) ∧ ∀ message, f ≠ .error (.stray (.plain message))
  handlers : ∀ h ∈ setup.registry.handlers, ∀ notice s message t,
    (h.run notice).run s ≠ (.error (.error (.stray (.plain message))), t)
  rules : ∀ r ∈ setup.registry.rules, ∀ notice s message t,
    (r.run notice).run s ≠ (.error (.error (.stray (.plain message))), t)
  sink : setup.Takes

/-- An error of the language, no room left, no end, or a step that is listed and not found. -/
def Failure.Foreseen (f : Failure) : Prop :=
  f.Known ∨ f = .limit ∨ f = .endless ∨ ∃ n : StepNumber, f = .foreign (quoted n.spelling)

theorem Failure.foreseen {f : Failure} (hforeign : ∀ message, f ≠ .foreign message)
    (hplain : ∀ message, f ≠ .error (.stray (.plain message))) : f.Foreseen := by
  rcases f with (e | e | (message | _ | _)) | message
  · exact .inl ⟨_, rfl, Bool.false_ne_true⟩
  · exact .inl ⟨_, rfl, Bool.false_ne_true⟩
  · exact absurd rfl (hplain message)
  · exact .inr (.inl rfl)
  · exact .inr (.inr (.inl rfl))
  · exact absurd rfl (hforeign message)

theorem stays_blame_foreseen {cause : String → Cause} {pos : State ω → Option Location} {m : Run ω α}
    (h : Stays (fun _ => True) (fun f _ => ∀ message, f ≠ .error (.stray (.plain message))) m) :
    Stays (fun _ => True) (fun f _ => f.Foreseen) (blame cause pos m) :=
  stays_of_failures fun s _ t hrun => Failure.foreseen (fun message hf => blame_ne_foreign cause pos m s t message (hf ▸ hrun))
    ((h.blame cause pos fun _ _ _ _ => nofun).of_error trivial hrun)

theorem Setup.RaisesKnown.maintains {setup : Setup ω} (h : setup.RaisesKnown) :
    setup.Maintains (fun _ => True) fun f _ => f.Foreseen where
  functions g hg args pos := stays_of_failures fun s f t hrun =>
    let ⟨hforeign, hplain⟩ := h.functions g hg args pos s f t hrun
    Failure.foreseen hforeign hplain
  raised _ _ _ _ := .inl ⟨_, rfl, Bool.false_ne_true⟩
  limit _ _ := .inr (.inl rfl)
  endless _ _ := .inr (.inr (.inl rfl))
  marks _ _ := trivial
  notify notice _ := stays_blame_foreseen <| stays_runHandlers notice _ fun g hg => stays_of_failures fun s f t hrun message hf =>
    h.handlers g (List.mem_filter.mp hg).1 notice s message t (hf ▸ hrun)
  record action pos s _ := stays_blame_foreseen (stays_runRules _ _ fun r hr => stays_of_failures fun s f t hrun message hf =>
    h.rules r hr _ s message t (hf ▸ hrun)) _ trivial
  unread _ _ _ := .inl ⟨_, rfl, Bool.false_ne_true⟩
  environment _ _ _ _ := trivial
  delivered text s _ := by
    rw [h.sink.deliver]
    exact .ok trivial
  missing pos goal f s _ hmissing := by
    rcases Program.stepsOf_failure hmissing with ⟨cause, -, rfl⟩ | ⟨n, rfl⟩
    · exact .inl ⟨_, rfl, Bool.false_ne_true⟩
    · exact .inr (.inr (.inr ⟨n, rfl⟩))
  frames _ _ _ _ := trivial
  program _ _ _ := trivial

/-- **Reports.** Handlers of errors that do not fail are told of errors that evaluation comes to, each one once and in
the order of the lines: of all of them just if the lines that are reached are stopped by errors of the language only. So
they are if nothing else is raised by what is registered, the sink takes every text, and no line runs into a limit, has no
end, or misses a step that is listed. -/
theorem evaluateText_told {setup : Setup ω} (hreturns : setup.ReportsReturn) (text : String) (s : State ω) :
    let r := evaluateText setup text s
    ∃ told, evaluateText setup.recording text (s.beside []) = (r.1, r.2.beside told) ∧ told.Sublist r.1 ∧
      (told = r.1 ↔ ∀ l t, setup.Reaches (programLines text) s l t → ∀ f, setup.Stops l t f → f.Known) ∧
      (setup.RaisesKnown → (∀ l t, setup.Reaches (programLines text) s l t → ¬ setup.Stops l t .limit ∧
        ¬ setup.Stops l t .endless ∧ ∀ n : StepNumber, ¬ setup.Stops l t (.foreign (quoted n.spelling))) → told = r.1) := by
  obtain ⟨told, hrun, hsublist, htold⟩ := evaluateUntilStray_recording hreturns (programLines text) s []
  refine ⟨told, hrun, hsublist, htold, fun hknown hrest => htold.mpr fun l t hl f hf => ?_⟩
  obtain ⟨hlimit, hendless, hmissing⟩ := hrest l t hl
  obtain ⟨u, hu⟩ := hf
  rcases (hknown.maintains.runText_stays l).of_error trivial hu with hf | rfl | rfl | ⟨n, rfl⟩
  · exact hf
  · exact absurd ⟨u, hu⟩ hlimit
  · exact absurd ⟨u, hu⟩ hendless
  · exact absurd ⟨u, hu⟩ (hmissing n)

def Setup.fallible (raised : Script.Raised) : Setup Console where
  sink := Console.type
  registry :=
    { functions := [⟨"boom", ⟨1, none⟩, "", (Script.Body.raise raised).run "boom"⟩]
      handlers :=
        [⟨.output, 0, "test", fun notice =>
            Script.Responder.run ⟨.raise (.foreign "full"), some "1"⟩ (Script.noticeDetail notice)⟩,
          ⟨.onError, 0, "test", fun notice => Script.Responder.run ⟨.note "error", none⟩ (Script.noticeDetail notice)⟩] }

theorem Setup.fallible_reportsReturn (raised : Script.Raised) : (Setup.fallible raised).ReportsReturn :=
  List.forall_mem_cons.mpr ⟨nofun, List.forall_mem_singleton.mpr fun _ _ _ => ⟨_, rfl⟩⟩

/-- A line that is not read, one that a function stops with an error, and one that a handler stops. -/
theorem evaluateText_told_all :
    let setup := Setup.fallible (.fault "boom" none)
    let text := "Type.\nType boom(1).\nType 2, 1."
    let r := evaluateText setup text (setup.start {})
    setup.ReportsReturn ∧ r.1.map LineError.label = ["JossParseError", "JossRuntimeError", "JossRuntimeError"] ∧
      evaluateText setup.recording text ((setup.start {}).beside []) = (r.1, r.2.beside r.1) ∧
      ∀ l t, setup.Reaches (programLines text) (setup.start {}) l t → ∀ f, setup.Stops l t f → f.Known := by
  intro setup text r
  have hreturns : setup.ReportsReturn := Setup.fallible_reportsReturn _
  obtain ⟨told, hrun, hsublist, htold, -⟩ := evaluateText_told hreturns text (setup.start {})
  have hlength : told.length = r.1.length := by
    rw [show told = (evaluateText setup.recording text ((setup.start {}).beside [])).2.world.2 by rw [hrun]; rfl]
    decide +kernel
  obtain rfl : told = r.1 := hsublist.eq_of_length hlength
  exact ⟨hreturns, by decide +kernel, hrun, htold.mp rfl⟩

/-- Handlers are not told of what a function raises on its own. -/
theorem evaluateText_told_fails :
    let setup := Setup.fallible (.foreign "boom")
    let r := evaluateText setup.recording "Type boom(1)." ((setup.start {}).beside [])
    setup.ReportsReturn ∧ Reachable setup (setup.start {}) ∧
      (evaluateText setup "Type boom(1)." (setup.start {})).1.map LineError.message = ["Internal interpreter error: boom"] ∧
      r.1.map LineError.message = ["Internal interpreter error: boom"] ∧ r.2.world.2.map LineError.message = [] ∧
      r.2.world.1.notes.size = 0 := by
  exact ⟨Setup.fallible_reportsReturn _, ⟨{}, [], rfl⟩, by decide +kernel⟩

end JossLang
