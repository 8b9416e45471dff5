import JossLang.Proofs.ExecutionAgreement

/-!
# How lines run

What a line does besides carrying out its command cannot be seen: it counts,
sets up frames, records and tells handlers. So a line ends as its command does
(`evaluateLine_run`), and so do a step that is run by `Do` and a plain `Do`.
-/

namespace JossLang

variable {ω : Type} {worlds : ω → ω → Prop}

/-! ## Changes that cannot be seen -/

/-- A later state that has the same bindings, program and output, and a world that is as good. -/
structure State.Unseen (worlds : ω → ω → Prop) (s t : State ω) : Prop where
  environment : t.environment = s.environment
  program : t.program = s.program
  typed : t.typed = s.typed
  marks : t.marks = s.marks
  worlds : ∀ v, (worlds s.world v → worlds t.world v) ∧ (worlds v s.world → worlds v t.world)

namespace State.Unseen

variable {s t u : State ω}

theorem refl (s : State ω) : s.Unseen worlds s := ⟨rfl, rfl, rfl, rfl, fun _ => ⟨id, id⟩⟩

theorem reframed (frames : List Frame) (count : Nat) (s : State ω) :
    s.Unseen worlds { s with frames := frames, frameCount := count } := ⟨rfl, rfl, rfl, rfl, fun _ => ⟨id, id⟩⟩

theorem trans (h : s.Unseen worlds t) (h' : t.Unseen worlds u) : s.Unseen worlds u :=
  ⟨h'.environment.trans h.environment, h'.program.trans h.program, h'.typed.trans h.typed, h'.marks.trans h.marks,
    fun v => ⟨(h'.worlds v).1 ∘ (h.worlds v).1, (h'.worlds v).2 ∘ (h.worlds v).2⟩⟩

end State.Unseen

theorem Comparison.Between.unseen {C : Comparison ω} {s s' t t' : State ω} (h : C.Between s s')
    (ht : s.Unseen C.worlds t) (ht' : s'.Unseen C.worlds t') : C.Between t t' := by
  refine ⟨⟨?_, ?_, ?_, (ht'.worlds _).2 ((ht.worlds _).1 h.worlds)⟩, ?_⟩
  · rw [ht.environment, ht'.environment]; exact h.environment
  · rw [ht.typed, ht'.typed, h.typed]
  · rw [ht.marks, ht'.marks, h.marks]
  · rw [ht.program, ht'.program]; exact h.programs

def Silent (worlds : ω → ω → Prop) (m : Run ω Unit) : Prop := ∀ s, ∃ t, m.run s = (.ok (), t) ∧ s.Unseen worlds t

/-- A result, and the result after something silent, which follows only on success. -/
inductive Follows (worlds : ω → ω → Prop) : Except Failure Unit × State ω → Except Failure Unit × State ω → Prop where
  | ok {s t : State ω} : s.Unseen worlds t → Follows worlds (.ok (), s) (.ok (), t)
  | error {f : Failure} {s : State ω} : Follows worlds (.error f, s) (.error f, s)

section
variable {m m' : Run ω Unit}

theorem silent_of_watches (h : Watches worlds m) : Silent worlds m := by
  intro s
  obtain ⟨w, hm, hw⟩ := h s
  exact ⟨_, hm, rfl, rfl, rfl, rfl, hw⟩

theorem Silent.then (h : Silent worlds m) (body : Run ω Unit) (s : State ω) :
    ∃ t, s.Unseen worlds t ∧ (m >>= fun _ => body).run s = body.run t := by
  obtain ⟨t, hm, ht⟩ := h s
  exact ⟨t, ht, by rw [run_bind, hm]⟩

theorem Silent.after (h : Silent worlds m) (body : Run ω Unit) (s : State ω) :
    Follows worlds (body.run s) ((body >>= fun _ => m).run s) := by
  rw [run_bind]
  generalize body.run s = r
  obtain ⟨result, t⟩ := r
  cases result with
  | error f => exact .error
  | ok a =>
    obtain ⟨u, hm, hu⟩ := h t
    show Follows worlds _ (m.run t)
    rw [hm]
    exact .ok hu

theorem silent_pushFrame (activity : Activity) (caller : Location) :
    Silent worlds (pushFrame activity caller : Run ω Unit) := fun _ =>
  ⟨_, rfl, rfl, rfl, rfl, rfl, fun _ => ⟨id, id⟩⟩

theorem silent_popFrame : Silent worlds (popFrame : Run ω Unit) := fun _ =>
  ⟨_, rfl, rfl, rfl, rfl, rfl, fun _ => ⟨id, id⟩⟩

end

section
variable {setup : Setup ω} (hd : setup.Detached worlds)
include hd

theorem silent_notify (notice : Notice) : Silent worlds (notify setup notice) := silent_of_watches (hd.notify notice)

theorem silent_record (action : Action) (pos : Location) : Silent worlds (record setup action pos) := by
  intro s
  obtain ⟨w, hm, hw⟩ := hd.record action pos s
  exact ⟨_, hm, rfl, rfl, rfl, rfl, hw⟩

end

/-! ## Endings -/

def LineError.step : LineError → Option Nat
  | .runtime e => e.step
  | _ => none

def LineError.isLimit : LineError → Bool
  | .runtime e => e.cause == .limitReached
  | _ => false

def Failure.ending (f : Failure) (s : State ω) : LineError :=
  match f with
  | .error (.parse e) => .parse e
  | .error (.runtime e) => .runtime { e with step := e.step <|> s.log.last?.map (·.index) }
  | .error (.stray (.plain message)) => internalError s (.internal message)
  | .limit => internalError s .limitReached
  | .endless => .stray .endless
  | .foreign message => internalError s (.internal message)

def Failure.Known (f : Failure) : Prop := ∃ e, f = .error e ∧ ¬ e.isStray

/-- A line ends with the error of its failure: handlers are told of it, if it is one of the language. -/
theorem settle_cases (setup : Setup ω) (f : Failure) (s : State ω) :
    f.Known ∧ settle setup f s = report setup (f.ending s) s ∨ ¬ f.Known ∧ settle setup f s = (f.ending s, s) := by
  cases f with
  | error e => cases e with
    | parse e => exact .inl ⟨⟨_, rfl, nofun⟩, rfl⟩
    | runtime e => exact .inl ⟨⟨_, rfl, nofun⟩, rfl⟩
    | stray x =>
      refine .inr ⟨?_, by cases x <;> rfl⟩
      rintro ⟨_, ⟨⟩, he⟩
      exact he rfl
  | foreign message => exact .inr ⟨by rintro ⟨_, ⟨⟩, _⟩, rfl⟩

theorem report_state (setup : Setup ω) (e : LineError) (s : State ω) :
    (report setup e s).2 = ((notify setup (.onError e)).run s).2 := by
  rw [report]
  rcases (notify setup (.onError e)).run s with ⟨(_ | _ | _) | _, t⟩ <;> rfl

def carryOut (setup : Setup ω) (read : Except ParseError Line) (s : State ω) : Except Failure Unit × State ω :=
  match read with
  | .ok line => (line.run setup).run s
  | .error e => (.error (.error (.parse e)), s)

theorem get_bind_run {α : Type} (f : State ω → Run ω α) (s : State ω) : (get >>= f).run s = (f s).run s := rfl

theorem runText_run (setup : Setup ω) (text : String) (s : State ω) :
    (runText setup text).run s = match (notify setup (.lineStart text)).run s with
      | (.ok _, t) => carryOut setup (Line.parse ⟨setup.file, t.lineNumber, text.toList⟩) t
      | (.error f, t) => (.error f, t) := by
  rw [runText, run_bind]
  generalize (notify setup (.lineStart text)).run s = r
  obtain ⟨_ | _, t⟩ := r
  · rfl
  · dsimp only
    rw [get_bind_run]
    generalize Line.parse ⟨setup.file, t.lineNumber, text.toList⟩ = read
    cases read <;> rfl

inductive Concludes (worlds : ω → ω → Prop) : Except Failure Unit × State ω → Option LineError × State ω → Prop where
  | ok {s t : State ω} : s.Unseen worlds t → Concludes worlds (.ok (), s) (none, t)
  | error {f : Failure} {s t : State ω} : s.Unseen worlds t → Concludes worlds (.error f, s) (some (f.ending s), t)

theorem Concludes.environment {r : Except Failure Unit × State ω} {x : Option LineError × State ω} (h : Concludes worlds r x) :
    x.2.environment = r.2.environment := by
  cases h with
  | ok ht => exact ht.environment
  | error ht => exact ht.environment

theorem Follows.concludes {r r' : Except Failure Unit × State ω} {x : Option LineError × State ω}
    (h : Follows worlds r r') (h' : Concludes worlds r' x) : Concludes worlds r x := by
  cases h with
  | ok ht => cases h' with
    | ok hu => exact .ok (ht.trans hu)
  | error => exact h'

section
variable {setup : Setup ω} (hd : setup.Detached worlds)
include hd

theorem settle_run (f : Failure) (s : State ω) : ∃ t, settle setup f s = (f.ending s, t) ∧ s.Unseen worlds t := by
  rcases settle_cases setup f s with ⟨-, h⟩ | ⟨-, h⟩
  · obtain ⟨t, hm, ht⟩ := silent_notify hd (.onError (f.ending s)) s
    exact ⟨t, by rw [h, report, hm], ht⟩
  · exact ⟨s, h, .refl s⟩

theorem concludes_settle (r : Except Failure Unit × State ω) :
    Concludes worlds r (match r with
      | (.ok _, s) => (none, s)
      | (.error f, s) => (some (settle setup f s).1, (settle setup f s).2)) := by
  obtain ⟨result, s⟩ := r
  cases result with
  | ok a => exact .ok (.refl s)
  | error f =>
    obtain ⟨t, ht, hs⟩ := settle_run hd f s
    dsimp only
    rw [ht]
    exact .error hs

/-- **Lines.** A line is carried out in a state that is as good, and ends as what was read does. -/
theorem evaluateLine_run (text : String) (s : State ω) : ∃ s₁, s.Unseen worlds s₁ ∧
    Concludes worlds (carryOut setup (Line.parse ⟨setup.file, (s.lineNumber + 1 : Nat), text.toList⟩) s₁)
      (evaluateLine setup text s) := by
  obtain ⟨w, hm, hw⟩ := hd.notify (.lineStart text) { s with lineNumber := s.lineNumber + 1, frames := [.top] }
  let s₁ : State ω := { s with lineNumber := s.lineNumber + 1, frames := [.top], world := w }
  have hrun : (runText setup text).run { s with lineNumber := s.lineNumber + 1, frames := [.top] } =
      carryOut setup (Line.parse ⟨setup.file, (s.lineNumber + 1 : Nat), text.toList⟩) s₁ := by
    rw [runText_run, hm]
  refine ⟨s₁, ⟨rfl, rfl, rfl, rfl, hw⟩, ?_⟩
  rw [evaluateLine]
  dsimp only
  rw [hrun]
  exact concludes_settle hd _

end

/-! ## Plain commands -/

section
variable {setup : Setup ω} (hd : setup.Detached worlds)
include hd

omit hd in
theorem stepRunner_run (setup : Setup ω) (worlds : ω → ω → Prop) (d : Nat) (step : Step) (pos : Location) (s : State ω) :
    ∃ s₁, s.Unseen worlds s₁ ∧
      Follows worlds ((step.command.run setup d).run s₁) ((Comparison.stepRunner setup (d + 1) step pos).run s) := by
  obtain ⟨s₁, hs, hrun⟩ := (silent_pushFrame (.step step.number) pos).then
    (step.command.run setup d >>= fun _ => popFrame) s
  refine ⟨s₁, hs, ?_⟩
  rw [Comparison.stepRunner, hrun]
  exact silent_popFrame.after _ _

theorem perform_run (d : Nat) (p q : Location) (goal : Goal) (s : State ω) : ∃ s₁, s.Unseen worlds s₁ ∧
    Follows worlds ((runGoal (Comparison.stepRunner setup d) goal q).run s₁)
      ((Command.run setup d ⟨p, .perform q goal .once, none⟩).run s) := by
  let body : Run ω Unit := runGoal (Comparison.stepRunner setup d) goal q >>= fun _ =>
    notify setup (.afterCommand ⟨p, .perform q goal .once, none⟩)
  obtain ⟨s₁, hs, hrun⟩ := (silent_record hd (.command "Do") p).then
    (notify setup (.beforeCommand ⟨p, .perform q goal .once, none⟩) >>= fun _ => body) s
  obtain ⟨s₂, hs', hrun'⟩ := (silent_notify hd (.beforeCommand ⟨p, .perform q goal .once, none⟩)).then body s₁
  refine ⟨s₂, hs.trans hs', ?_⟩
  have hbody : (Command.run setup d ⟨p, .perform q goal .once, none⟩).run s = body.run s₂ := by
    rw [Comparison.command_run, ← hrun', ← hrun]
    rfl
  rw [hbody]
  exact (silent_notify hd _).after _ _

end

end JossLang
