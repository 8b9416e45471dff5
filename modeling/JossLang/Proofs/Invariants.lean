import JossLang.Proofs.StackDiscipline

/-!
# Invariants

What a session keeps to, as long as what is registered keeps to it too: from a state of a kind, a line comes to
states of that kind, or fails in a way (`runText_stays`). Handlers, rules and functions may do anything else, and
may fail. A session that stays within states of a kind is one that goes in step with itself.
-/

namespace JossLang

variable {ω α β : Type}

inductive Ended (I : State ω → Prop) (F : Failure → State ω → Prop) : Except Failure α × State ω → Prop where
  | ok {a : α} {t : State ω} : I t → Ended I F (.ok a, t)
  | error {f : Failure} {t : State ω} : F f t → Ended I F (.error f, t)

/-- From a state of a kind, a computation comes to one of that kind, or fails in a way. -/
def Stays (I : State ω → Prop) (F : Failure → State ω → Prop) (m : Run ω α) : Prop := ∀ s, I s → Ended I F (m.run s)

section
variable {I : State ω → Prop} {F : Failure → State ω → Prop}

theorem stays_pure (a : α) : Stays I F (pure a) := fun _ hs => .ok hs

theorem Ended.bind {m : Run ω α} {f : α → Run ω β} {s : State ω} (h : Ended I F (m.run s)) (hf : ∀ a, Stays I F (f a)) :
    Ended I F ((m >>= f).run s) := by
  rw [run_bind]
  generalize m.run s = r at h
  cases h with
  | ok ht => exact hf _ _ ht
  | error ht => exact .error ht

theorem Stays.bind {m : Run ω α} {f : α → Run ω β} (h : Stays I F m) (hf : ∀ a, Stays I F (f a)) : Stays I F (m >>= f) :=
  fun s hs => (h s hs).bind hf

theorem Stays.of_error {m : Run ω α} (h : Stays I F m) {s t : State ω} {f : Failure} (hs : I s)
    (hm : m.run s = (.error f, t)) : F f t := by
  have hend := h s hs
  rw [hm] at hend
  cases hend with
  | error ht => exact ht

theorem Stays.of_ok {m : Run ω α} (h : Stays I F m) {s t : State ω} {a : α} (hs : I s) (hm : m.run s = (.ok a, t)) :
    I t := by
  have hend := h s hs
  rw [hm] at hend
  cases hend with
  | ok ht => exact ht

theorem stays_of_failures {P : Failure → Prop} {m : Run ω α} (h : ∀ s f t, m.run s = (.error f, t) → P f) :
    Stays (fun _ => True) (fun f _ => P f) m := by
  intro s _
  rcases hm : m.run s with ⟨f | _, t⟩
  · exact .error (h s f t hm)
  · exact .ok trivial

theorem stays_of_trans {R : State ω → State ω → Prop} (htrans : ∀ {s t u}, R s t → R t u → R s u) {m : Run ω α}
    (h : ∀ s, R s (m.run s).2) (s : State ω) : Stays (R s) (fun _ => R s) m := by
  intro t ht
  have hu := htrans ht (h t)
  generalize m.run t = r at hu
  obtain ⟨_ | _, u⟩ := r
  · exact .error hu
  · exact .ok hu

theorem Ended.state {P : State ω → Prop} {r : Except Failure α × State ω} (h : Ended I F r) (hI : ∀ t, I t → P t)
    (hF : ∀ f t, F f t → P t) : P r.2 := by
  cases h with
  | ok ht => exact hI _ ht
  | error ht => exact hF _ _ ht

theorem Stays.ends {m : Run ω α} (h : Stays I F m) (hF : ∀ f s, F f s → I s) {s : State ω} (hs : I s) : I (m.run s).2 :=
  (h s hs).state (fun _ => id) hF

theorem Stays.state {m : Run ω α} (h : Stays I (fun _ => I) m) {s : State ω} (hs : I s) : I (m.run s).2 :=
  h.ends (fun _ _ => id) hs

theorem blame_run (cause : String → Cause) (pos : State ω → Option Location) (m : Run ω α) (s : State ω) :
    (blame cause pos m).run s = match m.run s with
      | (.error (.foreign message), t) => (.error (.error (.runtime { cause := cause message, pos := pos t })), t)
      | r => r := rfl

theorem blame_ne_foreign (cause : String → Cause) (pos : State ω → Option Location) (m : Run ω α) (s t : State ω)
    (message : String) : (blame cause pos m).run s ≠ (.error (.foreign message), t) := by
  rw [blame_run]
  rcases m.run s with ⟨(_ | _ | _) | _, t⟩ <;> nofun

theorem Stays.blame {m : Run ω α} (h : Stays I F m) (cause : String → Cause) (pos : State ω → Option Location)
    (hblamed : ∀ message s, F (.foreign message) s → F (.error (.runtime { cause := cause message, pos := pos s })) s) :
    Stays I F (blame cause pos m) := by
  intro s hs
  have hend := h s hs
  rw [blame_run]
  generalize m.run s = r at hend
  cases hend with
  | ok ht => exact .ok ht
  | @error f t ht =>
    cases f with
    | foreign message => exact .error (hblamed message t ht)
    | error e => exact .error ht

theorem stays_runHandlers (notice : Notice) : ∀ hs : List (Handler ω), (∀ g ∈ hs, Stays I F (g.run notice)) →
    Stays I F (runHandlers notice hs)
  | [], _ => stays_pure ()
  | g :: hs, h => by
    obtain ⟨hg, h⟩ := List.forall_mem_cons.mp h
    exact hg.bind fun _ => stays_runHandlers notice hs h

theorem stays_runRules (notice : StepNotice) : ∀ rs : List (StepRule ω), (∀ r ∈ rs, Stays I F (r.run notice)) →
    Stays I F (runRules notice rs)
  | [], _ => stays_pure ()
  | r :: rs, h => by
    obtain ⟨hr, h⟩ := List.forall_mem_cons.mp h
    rw [runRules]
    split
    · exact hr.bind fun _ => stays_runRules notice rs h
    · exact (stays_pure ()).bind fun _ => stays_runRules notice rs h

theorem stays_deliver {setup : Setup ω} {text : String}
    (htaken : ∀ s, I s → I { s with world := (setup.sink text s.world).2, typed := text :: s.typed })
    (hrefused : ∀ message s, I s → (setup.sink text s.world).1 = .error message →
      F (.foreign message) { s with world := (setup.sink text s.world).2 }) : Stays I F (deliver setup text) := by
  intro s hs
  have htaken := htaken s hs
  have hrefused := fun message => hrefused message s hs
  rw [deliver_run]
  generalize setup.sink text s.world = r at htaken hrefused
  obtain ⟨message | _, w⟩ := r
  · exact .error (hrefused message rfl)
  · exact .ok htaken

section
variable {setup : Setup ω}
  (hblamed : ∀ cause pos message s, F (.foreign message) s → F (.error (.runtime { cause := cause, pos := pos })) s)
include hblamed

theorem stays_notify {notice : Notice} (h : ∀ g ∈ setup.registry.handlers, g.event = notice.event → Stays I F (g.run notice)) :
    Stays I F (notify setup notice) := by
  refine (stays_runHandlers notice _ fun g hg => ?_).blame _ _ fun _ _ => hblamed _ _ _ _
  obtain ⟨hmem, hevent⟩ := List.mem_filter.mp hg
  exact h g hmem (of_decide_eq_true hevent)

theorem stays_record (h : ∀ r ∈ setup.registry.rules, ∀ notice, Stays I F (r.run notice)) {action : Action} {pos : Location}
    (hrecorded : ∀ s, I s → I (s.record setup.verbose action pos)) : Stays I F (record setup action pos) := fun s hs =>
  (stays_runRules _ _ fun r hr => h r hr _).blame .ruleFailed (fun _ => some pos) (fun _ _ => hblamed _ _ _ _) _
    (hrecorded s hs)

end

end

/-! ## What sessions maintain -/

structure Setup.Evaluates (setup : Setup ω) (I : State ω → Prop) (F : Failure → State ω → Prop) : Prop where
  functions : ∀ g ∈ setup.registry.functions, ∀ args pos, Stays I F (g.run args pos)
  raised : ∀ cause pos s, I s → F (.error (.runtime { cause := cause, pos := pos })) s
  limit : ∀ s, I s → F .limit s
  endless : ∀ s, I s → F .endless s
  marks : ∀ s, I s → I { s with marks := s.marks + 1 }

/-- So does what is registered, but for handlers of errors, and what a session does by itself. -/
structure Setup.Maintains (setup : Setup ω) (I : State ω → Prop) (F : Failure → State ω → Prop) : Prop
    extends setup.Evaluates I F where
  notify : ∀ notice, notice.event ≠ .onError → Stays I F (notify setup notice)
  record : ∀ action pos, Stays I F (record setup action pos)
  unread : ∀ e s, I s → F (.error (.parse e)) s
  environment : ∀ g, Environment.Change g → ∀ s, I s → I { s with environment := g s.environment }
  delivered : ∀ text, Stays I F (deliver setup text)
  missing : ∀ pos goal f s, I s → s.program.stepsOf pos goal = .error f → F f s
  frames : ∀ frames count s, I s → I { s with frames := frames, frameCount := count }
  program : ∀ program s, I s → I { s with program := program }

section
variable {setup : Setup ω} {I : State ω → Prop} {F : Failure → State ω → Prop}

abbrev Lockstep.alone (setup : Setup ω) (I : State ω → Prop) (F : Failure → State ω → Prop) : Lockstep ω ω :=
  .within setup setup I F fun _ _ => False

theorem Lockstep.alone_outcome_iff {r : Except Failure α × State ω} : (alone setup I F).Outcome r r ↔ Ended I F r := by
  obtain ⟨f | a, t⟩ := r
  · refine ⟨fun h => ?_, fun h => ?_⟩
    · cases h with
      | error ht => exact .error ht.2
      | excused ht => exact ht.elim
    · cases h with
      | error ht => exact .error ⟨rfl, ht⟩
  · refine ⟨fun h => ?_, fun h => ?_⟩
    · cases h with
      | ok ht => exact .ok ht.2
    · cases h with
      | ok ht => exact .ok ⟨rfl, ht⟩

theorem Lockstep.alone_agree_iff {m : Run ω α} : (alone setup I F).Agree m m ↔ Stays I F m := by
  refine ⟨fun h s hs => alone_outcome_iff.mp (h s s ⟨rfl, hs⟩), fun h s s' hs => ?_⟩
  obtain ⟨rfl, hs⟩ := hs
  exact alone_outcome_iff.mpr (h _ hs)

namespace Setup

open Lockstep

theorem Evaluates.lawful (h : setup.Evaluates I F) : (alone setup I F).Lawful where
  limits := .inl rfl
  elementary := rfl
  functions := List.forall₂_same.mpr fun g hg => ⟨rfl, rfl, fun args pos => alone_agree_iff.mpr (h.functions g hg args pos)⟩
  raised cause pos s s' hs := ⟨hs.1, h.raised cause pos s hs.2⟩
  limit s s' hs := ⟨hs.1, h.limit s hs.2⟩
  endless s s' hs := ⟨hs.1, h.endless s hs.2⟩
  names s s' hs isBuiltin x := by rw [hs.1]
  elements := agree_elements (fun s s' hs => by rw [hs.1]) fun cause pos s s' hs => ⟨hs.1, h.raised cause pos s hs.2⟩
  marks s s' hs := ⟨by rw [hs.1], by rw [hs.1], h.marks s hs.2⟩

theorem Evaluates.eval (h : setup.Evaluates I F) (depth : Nat) (e : Expr) (scope : Scope) :
    Stays I F (e.eval setup (applyAt setup depth) scope) :=
  alone_agree_iff.mp (agree_eval h.lawful (agree_applyAt h.lawful (.inl rfl)) e scope)

theorem Evaluates.evalAll (h : setup.Evaluates I F) (depth : Nat) (es : List Expr) (scope : Scope) :
    Stays I F (evalAll setup (applyAt setup depth) scope es) :=
  alone_agree_iff.mp (agree_evalAll h.lawful (agree_applyAt h.lawful (.inl rfl)) es scope)

namespace Maintains

variable (h : setup.Maintains I F)
include h

theorem carries : (alone setup I F).Carries where
  toLawful := h.lawful
  program s s' hs := ⟨by rw [hs.1], fun pos goal f hmissing => ⟨hs.1, h.missing pos goal f s hs.2 hmissing⟩⟩
  environment g hg s s' hs := ⟨by rw [hs.1], h.environment g hg s hs.2⟩
  notify _ hnotice := alone_agree_iff.mpr (h.notify _ hnotice)
  delivered text := alone_agree_iff.mpr (h.delivered text)
  file := rfl
  lineNumber s s' hs := by rw [hs.1]
  unread e s s' hs := ⟨hs.1, h.unread e s hs.2⟩
  record action pos := alone_agree_iff.mpr (h.record action pos)
  pushFrame activity caller := alone_agree_iff.mpr fun s hs => .ok (h.frames _ _ s hs)
  popFrame := alone_agree_iff.mpr fun s hs => .ok (h.frames _ _ s hs)
  store number command s s' hs := ⟨by rw [hs.1], h.program _ s hs.2⟩

/-- **Lines** stay within the states of a kind up to their end, and then handlers of errors are told. -/
theorem runText_stays (text : String) : Stays I F (runText setup text) := alone_agree_iff.mp (runText_agree h.carries text)

/-- So do whole lines, if handlers of errors keep to the states of the kind and no failure leaves them. -/
theorem evaluateLine_stays (hF : ∀ f s, F f s → I s) (herror : ∀ e, Stays I F (JossLang.notify setup (.onError e))) {text : String}
    {s : State ω} (hs : I { s with lineNumber := s.lineNumber + 1, frames := [.top] }) :
    I (JossLang.evaluateLine setup text s).2 := by
  have ht := (h.runText_stays text).ends hF hs
  rw [evaluateLine]
  generalize (runText setup text).run { s with lineNumber := s.lineNumber + 1, frames := [.top] } = r at ht
  obtain ⟨f | _, t⟩ := r
  · rcases settle_cases setup f t with ⟨-, hsettle⟩ | ⟨-, hsettle⟩
    · dsimp only
      rw [hsettle, report_state]
      exact (herror _).ends hF ht
    · dsimp only
      rwa [hsettle]
  · exact ht

end Maintains

end Setup

end

end JossLang
