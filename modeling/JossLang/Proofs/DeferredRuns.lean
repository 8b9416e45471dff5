import JossLang.Proofs.DoLines
import JossLang.Proofs.NumberedLines

/-!
# Storing a line and running it later

A line that is stored as the only step of a new part, and then run by `Do`, does
the same as the line by itself: `evaluateLine_deferred`.

The two runs are compared while the left program lacks the step that the right
one has. They part ways only where the left one looks for that part, which is an
error there, and where the right one, which is one step deeper, reaches a limit.
-/

namespace JossLang

/-! ## A program with one more part -/

namespace Program

variable {p : Program} {n : StepNumber} (c : Command)

theorem step?_store_of_ne (hn : n.Named) {m : StepNumber} (hm : m.Named) (hne : m ≠ n) :
    (p.store n c).step? m = p.step? m := by
  rw [step?, store_table, lookup_put_ne fun h => hne (hm.eq_of_spelling hn h), step?]

variable (h : p.Ordered)
include h

theorem Ordered.stepsOf_store_of_ne (hn : n.Named) {part : String} (hne : part ≠ n.part) (pos : Location) :
    (p.store n c).stepsOf pos (.part part) = p.stepsOf pos (.part part) := by
  have hlisted : (p.store n c).listed part = p.listed part := by
    by_cases hstored : (p.step? n).isSome
    · rw [listed, order_store_of_stored c hstored, listed]
    · rw [listed_store_of_new c (Option.not_isSome_iff_eq_none.mp hstored), if_neg hne]
  have hfound : ∀ name ∈ p.listed part, (p.store n c).step? ⟨part, name⟩ = p.step? ⟨part, name⟩ := fun name hname => by
    obtain ⟨s, hs, hnumber⟩ := (h.inStep part name).mp hname
    exact step?_store_of_ne c hn (hnumber ▸ h.named s hs) fun he => hne (congrArg StepNumber.part he)
  have hsteps : (p.store n c).steps part = p.steps part := by
    rw [steps, hlisted]
    exact List.filterMap_congr hfound
  rw [stepsOf, stepsOf, hasPart, hasPart, hlisted, (h.store c hn).partSteps_eq, h.partSteps_eq, hsteps]

theorem Ordered.step?_eq_none (hnew : ¬ p.hasPart n.part) (hn : n.Named) : p.step? n = none :=
  h.step?_eq_none_iff.mpr fun s hs hspell =>
    hnew (h.hasPart_iff.mpr ⟨s, hs, by rw [(h.named s hs).eq_of_spelling hn hspell]⟩)

end Program

/-! ## The comparison -/

def Cause.misses (part : String) : Cause → Bool
  | .noSuchStep n => n.part == part
  | .noSuchPart p => p == part
  | _ => false

def LineError.misses (part : String) : LineError → Bool
  | .runtime e => e.cause.misses part
  | _ => false

variable {ω : Type}

/-- A session compared with itself, the right one having a step more. -/
def Comparison.deferred (setup : Setup ω) (worlds : ω → ω → Prop) (program : Program) (n : StepNumber) (c : Command) :
    Comparison ω where
  left := setup
  right := setup
  like := ⟨anywhere, setup.isBuiltin, fun _ => False⟩
  worlds := worlds
  programs p p' := p = program ∧ p' = program.store n c
  possible _ := True
  excused f := ∃ cause pos step, f = .error (.runtime ⟨cause, pos, step⟩) ∧ cause.misses n.part
  excused' f := f = .limit
  parted _ _ := False

section
variable {setup : Setup ω} {worlds : ω → ω → Prop} {program : Program} {n : StepNumber} {c : Command}
  (hp : program.Alike anywhere program) (hn : n.Spelled)
  (hnew : ¬ program.hasPart n.part)
include hp hn hnew

theorem Comparison.deferred_goals {goal : Goal} (hg : goal.Spelled) (pos pos' : Location) :
    (deferred setup worlds program n c).Goals (program.stepsOf pos goal) ((program.store n c).stepsOf pos' goal) := by
  have ho := hp.ordered
  have hplace : (deferred setup worlds program n c).like.place pos pos' := trivial
  have hsame := goals_of_alike (deferred setup worlds program n c) hp goal hplace
  cases goal with
  | step m =>
    by_cases hm : m = n
    · subst hm
      rw [Program.stepsOf, ho.step?_eq_none hnew hn.named]
      exact .excused ⟨_, _, none, rfl, beq_self_eq_true _⟩
    · have hstep := Program.step?_store_of_ne (p := program) c hn.named hg.named hm
      have hgoal : (program.store n c).stepsOf pos' (.step m) = program.stepsOf pos' (.step m) := by
        simp only [Program.stepsOf, hstep]
      rwa [hgoal]
  | part part =>
    by_cases hpart : part = n.part
    · subst hpart
      rw [Program.stepsOf, if_neg hnew]
      exact .excused ⟨_, _, none, rfl, beq_self_eq_true _⟩
    · rwa [ho.stepsOf_store_of_ne c hn.named hpart pos']

theorem Comparison.deferred_lawful (hd : setup.Detached worlds) : (deferred setup worlds program n c).Lawful where
  toParts := parts_none (fun _ _ => id) fun _ => id
  left := hd
  right := hd
  functions := rfl
  limits := rfl
  elementary := rfl
  sink := hd.sink
  isBuiltin := rfl
  deliberate _ _ _ _ := trivial
  parse _ := trivial
  limit := trivial
  endless := trivial
  refusal _ _ _ _ := trivial
  added _ _ _ _ _ _ _ _ := trivial
  goals p p' goal pos pos' hg _ h := by
    obtain ⟨rfl, rfl⟩ := h
    exact deferred_goals hp hn hnew hg pos pos'

end

/-! ## Both runs -/

section
variable {setup : Setup ω} {worlds : ω → ω → Prop} (hd : setup.Detached worlds)
include hd

theorem storing_run (pos : Location) (n : StepNumber) (c : Command) (s : State ω) : ∃ t,
    ((Line.stored pos n c).run setup).run s = (.ok (), t) ∧
      State.Unseen worlds { s with program := s.program.store n c } t := by
  obtain ⟨t, hrun, ht⟩ := silent_record hd (.stored n) pos s
  refine ⟨{ t with program := t.program.store n c }, ?_, ht.environment, ?_, ht.typed, ht.marks, ht.worlds⟩
  · rw [Line.run, run_bind, hrun]
    rfl
  · exact congrArg (·.store n c) ht.program

theorem evaluateLine_numbered {text : String} (htext : isComment text.toList = false) {s : State ω} {c : Command}
    (hread : Line.parse ⟨setup.file, (s.lineNumber + 1 : Nat), text.toList⟩ = .ok (.direct c)) {literal : String}
    (hl : Numeral literal.toList) {n : StepNumber} (hn : StepNumber.ofLiteral literal = .ok n) :
    ∃ c' t, c.Alike anywhere c' ∧ evaluateLine setup (literal ++ " " ++ text) s = (none, t) ∧
      State.Unseen worlds { s with program := s.program.store n c' } t := by
  let plain : Source := ⟨setup.file, (s.lineNumber + 1 : Nat), text.toList⟩
  let numbered : Source := ⟨setup.file, (s.lineNumber + 1 : Nat), (literal ++ " " ++ text).toList⟩
  have hplain : isComment plain.text = false := htext
  have hnumbered : numbered.text = literal.toList ++ ' ' :: text.toList := by simp [numbered, String.toList_append]
  obtain ⟨pos, c', hc, hparse⟩ := parse_numbered hplain hread hl hn hnumbered
  obtain ⟨s₁, hs₁, hx⟩ := evaluateLine_run hd (literal ++ " " ++ text) s
  obtain ⟨t, hrun, ht⟩ := storing_run hd pos n c' s₁
  rw [hparse, carryOut, hrun] at hx
  generalize evaluateLine setup (literal ++ " " ++ text) s = x at hx ⊢
  cases hx with
  | @ok _ u hu =>
    refine ⟨c', u, hc, rfl, State.Unseen.trans ?_ (ht.trans hu)⟩
    exact ⟨hs₁.environment, congrArg (·.store n c') hs₁.program, hs₁.typed, hs₁.marks, hs₁.worlds⟩

theorem deferred_outcome {s : State ω} (hs : Reachable setup s) {text : String} {c : Command}
    (hread : Line.parse ⟨setup.file, (s.lineNumber + 1 : Nat), text.toList⟩ = .ok (.direct c)) {literal : String}
    (hl : Numeral literal.toList) {n : StepNumber} (hn : StepNumber.ofLiteral literal = .ok n)
    (hnew : ¬ s.program.hasPart n.part) {c' : Command} (hc : c.Alike anywhere c') {t : State ω}
    (ht : State.Unseen worlds { s with program := s.program.store n c' } t) :
    (Comparison.deferred setup worlds s.program n c').LineOutcome (evaluateLine setup text s)
      (evaluateLine setup (doStep literal) t) := by
  have hself : (Comparison.same setup worlds anywhere (fun _ => False) fun _ => True).Between s s :=
    hs.between hd fun _ => trivial
  have hspelled := StepNumber.spelled_of_ofLiteral hl hn
  have hC := Comparison.deferred_lawful (c := c') hself.programs hspelled hnew hd
  have hstep : t.program.step? n = some ⟨n, c'⟩ := by
    have ho := hself.programs.ordered
    rw [ht.program, (ho.store c' hspelled.named).step?_eq_some_iff, ho.holds_store c' hspelled.named]
    exact ⟨.inl rfl, rfl⟩
  obtain ⟨s₁, hs₁, hx⟩ := evaluateLine_run hd text s
  obtain ⟨q, t₁, ht₁, hx'⟩ := evaluateLine_doStep hd hl hn hstep
  rw [hread, carryOut, Line.run] at hx
  have hw : (Comparison.deferred setup worlds s.program n c').Between s₁ t₁ := by
    have hkept : (Comparison.deferred setup worlds s.program n c').Between s { s with program := s.program.store n c' } :=
      ⟨⟨hself.environment, rfl, rfl, hd.refl _⟩, rfl, rfl⟩
    exact hkept.unseen hs₁ (ht.trans ht₁)
  cases hdepth : setup.limits.steps with
  | zero =>
    obtain ⟨frames, count, hlimit⟩ := Comparison.stepRunner_zero setup ⟨n, c'⟩ q t₁
    rw [hdepth, hlimit] at hx'
    generalize evaluateLine setup (doStep literal) t = x' at hx' ⊢
    cases hx' with
    | error _ => exact .excused' rfl
  | succ d =>
    rw [hdepth] at hx hx'
    obtain ⟨t₂, ht₂, hstep⟩ := stepRunner_run setup worlds d ⟨n, c'⟩ q t₁
    have hdepths : (Comparison.deferred setup worlds s.program n c').Depths (d + 1) d := .inr ⟨Nat.le_succ d, rfl⟩
    have ho := (Comparison.command_outcome hC hdepths hc (Nat.zero_le _) (hw.unseen (.refl _) ht₂)).resolve_left id
    exact ho.line hx (hstep.concludes hx')

/-- **Deferring.** Storing a line as the step of a new part, and running that step, does the same as the line
by itself, unless this needs the part or that reaches a limit. -/
theorem evaluateLine_deferred {s : State ω} (hs : Reachable setup s) {text : String} (htext : isComment text.toList = false)
    {c : Command} (hread : Line.parse ⟨setup.file, (s.lineNumber + 1 : Nat), text.toList⟩ = .ok (.direct c))
    {literal literal' : String} (hl : Numeral literal.toList) (hl' : Numeral literal'.toList) {n : StepNumber}
    (hn : StepNumber.ofLiteral literal = .ok n) (hn' : StepNumber.ofLiteral literal' = .ok n)
    (hnew : ¬ s.program.hasPart n.part) :
    let x := evaluateLine setup text s
    let kept := evaluateLine setup (literal ++ " " ++ text) s
    let x' := evaluateLine setup (doStep literal') kept.2
    kept.1 = none ∧ kept.2.environment = s.environment ∧ kept.2.typed = s.typed ∧
      ((∀ e ∈ x.1, ¬ e.misses n.part) → (∀ e ∈ x'.1, ¬ e.isLimit) →
        x.2.Alike ⟨anywhere, setup.isBuiltin, fun _ => False⟩ worlds x'.2 ∧
        x.2.program = s.program ∧ (∃ c', c.Alike anywhere c' ∧ x'.2.program = s.program.store n c') ∧
        Option.Rel LineError.SameFault x.1 x'.1) := by
  obtain ⟨c', t, hc, hkept, ht⟩ := evaluateLine_numbered hd htext hread hl hn
  rw [hkept]
  refine ⟨rfl, ht.environment, ht.typed, fun hmiss hlimit => ?_⟩
  have hline := deferred_outcome hd hs hread hl' hn' hnew hc ht
  generalize evaluateLine setup text s = x at hline hmiss ⊢
  generalize evaluateLine setup (doStep literal') t = x' at hline hlimit ⊢
  cases hline with
  | ok hw => exact ⟨hw.toAlike, hw.programs.1, ⟨c', hc, hw.programs.2⟩, .none⟩
  | error hw hf _ => exact ⟨hw.toAlike, hw.programs.1, ⟨c', hc, hw.programs.2⟩, .some (hf.1.sameFault _ _)⟩
  | excused hf =>
    obtain ⟨cause, pos, step, rfl, hcause⟩ := hf
    exact absurd hcause (hmiss _ rfl)
  | excused' hf =>
    obtain rfl := hf
    exact absurd rfl (hlimit _ rfl)

end

/-- A stored `Do`, whose step fails. -/
theorem evaluateLine_deferred_nested :
    let s := (evaluateLines Setup.plain ["2.1 Type x."] (Setup.plain.start "")).2
    let x := evaluateLine Setup.plain (doPart "2") s
    let kept := evaluateLine Setup.plain ("1.10" ++ " " ++ doPart "2") s
    let x' := evaluateLine Setup.plain (doStep "1.1") kept.2
    Reachable Setup.plain s ∧ ¬ s.program.hasPart "1" ∧ (∀ e ∈ x.1, ¬ e.misses "1") ∧ (∀ e ∈ x'.1, ¬ e.isLimit) ∧
      x'.1.map LineError.message = some "No such variable: x" ∧
      kept.1 = none ∧ x.2.Alike ⟨anywhere, Setup.plain.isBuiltin, fun _ => False⟩ Eq x'.2 ∧
      Option.Rel LineError.SameFault x.1 x'.1 := by
  intro s x kept x'
  have hs : Reachable Setup.plain s := ⟨"", _, rfl⟩
  have hp : Pointed "1.10".toList ['1'] ['1', '0'] :=
    ⟨by decide, List.all_eq_true.mp (by decide), by decide, List.all_eq_true.mp (by decide)⟩
  have hp' : Pointed "1.1".toList ['1'] ['1'] :=
    ⟨by decide, List.all_eq_true.mp (by decide), by decide, List.all_eq_true.mp (by decide)⟩
  have htwo : Numeral "2".toList := .whole (by decide) (List.all_eq_true.mp (by decide))
  have hpart : partOf "2" = .ok "2" := by decide +kernel
  obtain ⟨c, -, hread⟩ := parse_doPart htwo hpart Setup.plain.file (s.lineNumber + 1 : Nat)
  have hnew : ¬ s.program.hasPart "1" := by decide +kernel
  have hmiss : ∀ e ∈ x.1, ¬ e.misses "1" := by decide +kernel
  obtain ⟨hlimit, hmessage⟩ : (∀ e ∈ x'.1, ¬ e.isLimit) ∧ x'.1.map LineError.message = some "No such variable: x" := by
    decide +kernel
  have hn : StepNumber.ofLiteral "1.10" = .ok ⟨"1", "1"⟩ := by decide +kernel
  have hn' : StepNumber.ofLiteral "1.1" = .ok ⟨"1", "1"⟩ := by decide +kernel
  obtain ⟨hkept, -, -, hsame⟩ := evaluateLine_deferred Setup.plain_bare.detached hs (by decide +kernel) hread hp.numeral
    hp'.numeral hn hn' hnew
  obtain ⟨halike, -, -, hfault⟩ := hsame hmiss hlimit
  exact ⟨hs, hnew, hmiss, hlimit, hmessage, hkept, halike, hfault⟩

end JossLang
