import JossLang.Proofs.DoLines
import JossLang.Proofs.SessionAgreement

/-!
# Running a part

Running a part does the same as running its steps one after the other, each by
a line of its own, until one of them fails, and no command changes the program:
`evaluateLine_doPart_eq`.

Both runs are compared while the program stays as it is. One step of the part
is compared with one line (`step_matches`), and then the whole list by induction.
-/

namespace JossLang

variable {ω : Type}

/-- Evaluates lines one after the other until one of them fails. -/
def evaluateUntilError (setup : Setup ω) : List String → State ω → Option LineError × State ω
  | [], s => (none, s)
  | l :: ls, s =>
    match evaluateLine setup l s with
    | (none, s') => evaluateUntilError setup ls s'
    | (some e, s') => (some e, s')

def Comparison.frozen (setup : Setup ω) (worlds : ω → ω → Prop) (program : Program) : Comparison ω where
  left := setup
  right := setup
  like := .strict setup.isBuiltin
  worlds := worlds
  programs p p' := p = program ∧ p' = program
  possible _ := True
  excused _ := False
  excused' _ := False
  parted _ _ := False

namespace Comparison

inductive Matches (C : Comparison ω) : Except Failure Unit × State ω → Option LineError × State ω → Prop where
  | ok {t t' : State ω} : C.Between t t' → Matches C (.ok (), t) (none, t')
  | error {f f' : Failure} {t t' u : State ω} : C.Between t t' → f.Alike C.like.place f' →
      Matches C (.error f, t) (some (f'.ending u), t')

section
variable {C : Comparison ω} {r r' : Except Failure Unit × State ω} {x x' : Option LineError × State ω}

theorem Outcome.matches {n : Nat} (hC : C.Strict) (h : C.Outcome n Any r r') (hx : Concludes C.worlds r' x') :
    C.Matches r x' := by
  cases h with
  | ok _ hw _ => cases hx with
    | ok ht => exact .ok (hw.toBetween.unseen (.refl _) ht)
  | error hw hf => cases hx with
    | error ht => exact .error (hw.toBetween.unseen (.refl _) ht) hf.1
  | excused hf => exact absurd hf (hC.left _)
  | excused' hf => exact absurd hf (hC.right _)

theorem Matches.follows (h : C.Matches r x') (hr : Follows C.worlds r r') : C.Matches r' x' := by
  cases h with
  | ok hw => cases hr with
    | ok ht => exact .ok (hw.unseen ht (.refl _))
  | error hw hf => cases hr with
    | error => exact .error hw hf

theorem Matches.concludes (h : C.Matches r x') (hx : Concludes C.worlds r x) :
    C.Between x.2 x'.2 ∧ Option.Rel LineError.SameFault x.1 x'.1 := by
  cases h with
  | ok hw => cases hx with
    | ok ht => exact ⟨hw.unseen ht (.refl _), .none⟩
  | error hw hf => cases hx with
    | error ht => exact ⟨hw.unseen ht (.refl _), .some (hf.sameFault _ _)⟩

end

section
variable {setup : Setup ω} {worlds : ω → ω → Prop} {program : Program}

theorem frozen_strict : (frozen setup worlds program).Strict := ⟨fun _ => id, fun _ => id⟩

theorem frozen_lawful (hd : setup.Detached worlds) (hp : program.Alike Eq program) :
    (frozen setup worlds program).Lawful where
  toParts := parts_none (fun _ _ => id) fun _ => id
  left := hd
  right := hd
  functions := rfl
  limits := rfl
  elementary := rfl
  sink := hd.sink
  isBuiltin := rfl
  deliberate _ _ _ _ := trivial
  parse _ := trivial
  limit := trivial
  endless := trivial
  refusal _ _ _ _ := trivial
  added _ _ _ _ _ _ _ _ := trivial
  goals p p' goal _ _ _ hplace h := by
    obtain ⟨rfl, rfl⟩ := h
    exact goals_of_alike (frozen setup worlds p') hp goal hplace

variable (hd : setup.Detached worlds) (hp : program.Alike Eq program)
include hd hp

theorem step_matches {step : Step} (hstep : program.Holds step) (q : Location) {s s' : State ω}
    (hw : (frozen setup worlds program).Between s s') :
    (frozen setup worlds program).Matches ((stepRunner setup setup.limits.steps step q).run s)
      (evaluateLine setup (doStep step.number.spelling) s') := by
  have hspelled := hp.spelled step hstep
  have hfound : s'.program.step? step.number = some step := by
    rw [hw.programs.2]
    exact hp.ordered.step?_eq_some_iff.mpr ⟨hstep, rfl⟩
  obtain ⟨q', s₁', hs', hx⟩ := evaluateLine_doStep hd hspelled.numeral hspelled.names hfound
  cases hdepth : setup.limits.steps with
  | zero =>
    obtain ⟨frames, count, hleft⟩ := stepRunner_zero setup step q s
    obtain ⟨frames', count', hright⟩ := stepRunner_zero setup step q' s₁'
    rw [hdepth, hright] at hx
    rw [hleft]
    generalize evaluateLine setup (doStep step.number.spelling) s' = x' at hx ⊢
    cases hx with
    | error ht => exact .error (hw.unseen (.reframed _ _ s) (hs'.trans (.trans (.reframed _ _ s₁') ht))) (.stray _)
  | succ d =>
    rw [hdepth] at hx
    obtain ⟨s₁, hs, hleft⟩ := stepRunner_run setup worlds d step q s
    obtain ⟨s₂', hs₂', hright⟩ := stepRunner_run setup worlds d step q' s₁'
    have ho := (command_outcome (frozen_lawful hd hp) (d := d) (.inl rfl) (hp.commands hstep) (Nat.zero_le _)
      (hw.unseen hs (hs'.trans hs₂'))).resolve_left id
    exact (ho.matches frozen_strict (hright.concludes hx)).follows hleft

theorem steps_matches (q : Location) : ∀ (steps : List Step), (∀ step ∈ steps, program.Holds step) →
    ∀ {s s' : State ω}, (frozen setup worlds program).Between s s' →
      (frozen setup worlds program).Matches ((runSteps (stepRunner setup setup.limits.steps) q steps).run s)
        (evaluateUntilError setup (steps.map fun step => doStep step.number.spelling) s')
  | [], _, _, _, hw => .ok hw
  | step :: steps, hsteps, s, s', hw => by
    obtain ⟨hstep, hsteps⟩ := List.forall_mem_cons.mp hsteps
    have hone := step_matches hd hp hstep q hw
    rw [runSteps, run_bind, List.map_cons, evaluateUntilError]
    generalize (stepRunner setup setup.limits.steps step q).run s = r at hone ⊢
    generalize evaluateLine setup (doStep step.number.spelling) s' = x' at hone ⊢
    cases hone with
    | ok hw => exact steps_matches q steps hsteps hw
    | error hw hf => exact .error hw hf

end

end Comparison

/-- **Parts.** A part runs as its steps do one after the other, in their order, until the first that fails.
The program stays as it is. -/
theorem evaluateLine_doPart_eq {setup : Setup ω} {worlds : ω → ω → Prop} (hd : setup.Detached worlds) {s : State ω}
    (hs : Reachable setup s) {part : String} (hpart : s.program.hasPart part) :
    let steps := s.program.steps part
    let x := evaluateLine setup (doPart part) s
    let x' := evaluateUntilError setup (steps.map fun step => doStep step.number.spelling) s
    steps.Pairwise Step.Before ∧ x.2.program = s.program ∧ x'.2.program = s.program ∧
      x.2.environment = x'.2.environment ∧ x.2.typed = x'.2.typed ∧ worlds x.2.world x'.2.world ∧
      Option.Rel LineError.SameFault x.1 x'.1 := by
  intro steps x x'
  have hself : (Comparison.same setup worlds Eq (fun _ => False) fun _ => True).Between s s :=
    hs.between hd fun _ => rfl
  have hp : s.program.Alike Eq s.program := hself.programs
  obtain ⟨hnumeral, hnames⟩ := hp.part_names hpart
  obtain ⟨q, s₁, hs₁, hx⟩ := evaluateLine_doPart hd hnumeral hnames hp.ordered hpart
  have hw : (Comparison.frozen setup worlds s.program).Between s s := ⟨hself.toAlike, rfl, rfl⟩
  have hmatches := Comparison.steps_matches hd hp q steps
    (fun _ hstep => (hp.ordered.mem_steps_iff.mp hstep).2) (hw.unseen hs₁ (.refl _))
  obtain ⟨hend, he⟩ := hmatches.concludes hx
  exact ⟨hp.ordered.sorted_steps part, hend.programs.1, hend.programs.2, hend.environment.eq, hend.typed, hend.worlds, he⟩

/-- A part whose last step fails after it has typed a number. -/
theorem evaluateLine_doPart_eq_fails :
    let s := (evaluateLines Setup.plain ["1.2 Type x, y.", "1.15 Type x*x.", "1.1 Set x = 3."] (Setup.plain.start "")).2
    let x := evaluateLine Setup.plain (doPart "1") s
    let x' := evaluateUntilError Setup.plain ["Do step 1.1.", "Do step 1.15.", "Do step 1.2."] s
    Reachable Setup.plain s ∧ s.program.hasPart "1" ∧ x.2.world = "9\n3\n" ∧
      x.1.map LineError.message = some "No such variable: y" ∧
      x.2.program = s.program ∧ x.2.environment = x'.2.environment ∧ x.2.typed = x'.2.typed ∧
      Option.Rel LineError.SameFault x.1 x'.1 := by
  intro s x x'
  have hs : Reachable Setup.plain s := ⟨"", _, rfl⟩
  obtain ⟨hpart, hlines⟩ : s.program.hasPart "1" = true ∧
      ((s.program.steps "1").map fun step => doStep step.number.spelling) =
        ["Do step 1.1.", "Do step 1.15.", "Do step 1.2."] := by decide +kernel
  obtain ⟨-, hprogram, -, henvironment, htyped, -, hfault⟩ := evaluateLine_doPart_eq Setup.plain_bare.detached hs hpart
  rw [hlines] at henvironment htyped hfault
  exact ⟨hs, hpart, and_assoc.mp ⟨by decide +kernel, hprogram, henvironment, htyped, hfault⟩⟩

end JossLang
