import JossLang.Proofs.ErrorReports

/-!
# The error output

A session does not look at what was shown of errors, as long as what is registered does not: from states that differ
only there, lines come to the same (`evaluateLine_withErr`).
-/

namespace JossLang

variable {α β : Type}

def State.withErr (s : State Console) (err : String) : State Console := { s with world := { s.world with err := err } }

/-- The error output is neither read nor written. -/
def LeavesErr (m : Run Console α) : Prop := ∀ s err, m.run (s.withErr err) = ((m.run s).1, (m.run s).2.withErr err)

structure Registry.LeavesErr (r : Registry Console) : Prop where
  functions : ∀ g ∈ r.functions, ∀ args pos, JossLang.LeavesErr (g.run args pos)
  handlers : ∀ h ∈ r.handlers, ∀ notice, JossLang.LeavesErr (h.run notice)
  rules : ∀ x ∈ r.rules, ∀ notice, JossLang.LeavesErr (x.run notice)

structure Setup.LeavesErr (setup : Setup Console) : Prop extends setup.registry.LeavesErr where
  sink : ∀ text (c : Console) err,
    setup.sink text { c with err := err } = ((setup.sink text c).1, { (setup.sink text c).2 with err := err })

theorem leavesErr_pure (a : α) : LeavesErr (pure a) := fun _ _ => rfl

theorem leavesErr_throw (f : Failure) : LeavesErr (throw f : Run Console α) := fun _ _ => rfl

theorem LeavesErr.bind {m : Run Console α} {f : α → Run Console β} (h : LeavesErr m) (hf : ∀ a, LeavesErr (f a)) :
    LeavesErr (m >>= f) := by
  intro s err
  rw [run_bind, run_bind, h s err]
  cases hm : (m.run s).1 with
  | ok a => rw [show m.run s = (.ok a, (m.run s).2) from Prod.ext hm rfl]; exact hf a _ err
  | error e => rw [show m.run s = (.error e, (m.run s).2) from Prod.ext hm rfl]

theorem LeavesErr.blame {m : Run Console α} (h : LeavesErr m) (cause : String → Cause)
    {pos : State Console → Option Location} (hpos : ∀ s err, pos (s.withErr err) = pos s) :
    LeavesErr (blame cause pos m) := by
  intro s err
  rw [blame_run, blame_run, h s err]
  generalize m.run s = r
  obtain ⟨(_ | _) | _, t⟩ := r
  · rfl
  · simp only [hpos]
  · rfl

theorem leavesErr_runHandlers (notice : Notice) {hs : List (Handler Console)} (h : ∀ g ∈ hs, LeavesErr (g.run notice)) :
    LeavesErr (runHandlers notice hs) := by
  induction hs with
  | nil => exact leavesErr_pure ()
  | cons g hs ih =>
    obtain ⟨hg, h⟩ := List.forall_mem_cons.mp h
    exact hg.bind fun _ => ih h

theorem leavesErr_runRules (notice : StepNotice) {rs : List (StepRule Console)} (h : ∀ r ∈ rs, LeavesErr (r.run notice)) :
    LeavesErr (runRules notice rs) := by
  induction rs with
  | nil => exact leavesErr_pure ()
  | cons r rs ih =>
    obtain ⟨hr, h⟩ := List.forall_mem_cons.mp h
    rw [runRules]
    split
    · exact hr.bind fun _ => ih h
    · exact ih h

/-! ## Lines -/

def Lockstep.complained (setup : Setup Console) (err : String) : Lockstep Console Console where
  left := setup
  right := setup
  states s s' := s' = s.withErr err
  failed _ s s' := s' = s.withErr err
  excused _ _ := False

theorem LeavesErr.agree {setup : Setup Console} {m : Run Console α} (h : LeavesErr m) (err : String) :
    (Lockstep.complained setup err).Agree m m := by
  intro s s' hs
  cases hs
  rw [h s err]
  generalize m.run s = r
  obtain ⟨_ | a, t⟩ := r
  · exact .error rfl
  · exact .ok rfl

theorem LeavesErr.of_agree {setup : Setup Console} {m : Run Console α}
    (h : ∀ err, (Lockstep.complained setup err).Agree m m) : LeavesErr m := by
  intro s err
  have ho := h err s _ rfl
  generalize m.run s = r at ho ⊢
  generalize m.run (s.withErr err) = r' at ho ⊢
  cases ho with
  | ok ht => rw [ht]
  | error ht => rw [ht]
  | excused ht => exact ht.elim

section
variable {setup : Setup Console} (h : setup.LeavesErr)
include h

theorem leavesErr_notify (notice : Notice) : LeavesErr (notify setup notice) := by
  unfold notify
  refine (leavesErr_runHandlers notice fun g hg => ?_).blame _ fun _ _ => rfl
  exact h.handlers g (List.mem_filter.mp hg).1 notice

theorem leavesErr_record (action : Action) (pos : Location) : LeavesErr (record setup action pos) := by
  intro s err
  have hrules := leavesErr_runRules ⟨s.log.nextIndex, action, pos⟩ fun r hr => h.rules r hr _
  have hplace : ∀ (t : State Console) (e : String), some pos = some pos := fun _ _ => rfl
  exact hrules.blame .ruleFailed hplace (s.record setup.verbose action pos) err

theorem Lockstep.complained_carries (err : String) : (complained setup err).Carries where
  limits := .inl rfl
  elementary := rfl
  functions := List.forall₂_same.mpr fun g hg => ⟨rfl, rfl, fun args pos => (h.functions g hg args pos).agree err⟩
  raised _ _ _ _ := id
  limit _ _ := id
  endless _ _ := id
  names := by
    intro s s' hs
    cases hs
    exact fun _ _ => rfl
  elements := agree_elements (by intro s s' hs; cases hs; rfl) fun _ _ _ _ => id
  marks := by
    intro s s' hs
    cases hs
    exact ⟨rfl, rfl⟩
  program := by
    intro s s' hs
    cases hs
    exact ⟨rfl, fun _ _ _ _ => rfl⟩
  environment g _ := by
    intro s s' hs
    cases hs
    rfl
  notify notice _ := (leavesErr_notify h notice).agree err
  delivered text := by
    have hsink : ∀ s : State Console, setup.sink text (s.withErr err).world =
        ((setup.sink text s.world).1, { (setup.sink text s.world).2 with err := err }) := fun s => h.sink text s.world err
    refine agree_deliver ?_ ?_ ?_
    · rintro s _ rfl
      exact (congrArg Prod.fst (hsink s)).symm
    · rintro s _ rfl
      exact congrArg (fun world => ({ s with world := world, typed := text :: s.typed } : State Console))
        (congrArg Prod.snd (hsink s))
    · rintro _ s _ rfl _
      exact congrArg (fun world => ({ s with world := world } : State Console)) (congrArg Prod.snd (hsink s))
  file := rfl
  lineNumber := by
    intro s s' hs
    cases hs
    rfl
  unread _ _ _ := id
  record action pos := (leavesErr_record h action pos).agree err
  pushFrame _ _ := agree_modify (by intro s s' hs; cases hs; rfl)
  popFrame := agree_modify (by intro s s' hs; cases hs; rfl)
  store _ _ := by
    intro s s' hs
    cases hs
    rfl

theorem leavesErr_runText (text : String) : LeavesErr (runText setup text) :=
  .of_agree fun err => Lockstep.runText_agree (Lockstep.complained_carries h err) text

theorem report_withErr (e : LineError) (s : State Console) (err : String) :
    report setup e (s.withErr err) = ((report setup e s).1, (report setup e s).2.withErr err) := by
  rw [report, report, leavesErr_notify h]
  generalize (notify setup (.onError e)).run s = r
  obtain ⟨(_ | _) | _, t⟩ := r <;> rfl

theorem settle_withErr (f : Failure) (s : State Console) (err : String) :
    settle setup f (s.withErr err) = ((settle setup f s).1, (settle setup f s).2.withErr err) := by
  rcases f with (e | e | (_ | _ | _)) | message
  · exact report_withErr h _ s err
  · exact report_withErr h _ s err
  all_goals rfl

theorem evaluateLine_withErr (text : String) (s : State Console) (err : String) :
    evaluateLine setup text (s.withErr err) = ((evaluateLine setup text s).1, (evaluateLine setup text s).2.withErr err) := by
  have hrun := leavesErr_runText h text { s with lineNumber := s.lineNumber + 1, frames := [.top] } err
  simp only [evaluateLine]
  rw [show ({ s.withErr err with lineNumber := (s.withErr err).lineNumber + 1, frames := [.top] } : State Console) =
    State.withErr { s with lineNumber := s.lineNumber + 1, frames := [.top] } err from rfl, hrun]
  generalize (runText setup text).run { s with lineNumber := s.lineNumber + 1, frames := [.top] } = r
  obtain ⟨f | _, t⟩ := r
  · simp only [settle_withErr h]
  · rfl

theorem evaluateLine_err (text : String) (s : State Console) :
    (evaluateLine setup text s).2.world.err = s.world.err := by
  have hsame := evaluateLine_withErr h text s s.world.err
  rw [show s.withErr s.world.err = s from rfl] at hsame
  exact congrArg (fun x => x.2.world.err) hsame

end

end JossLang
