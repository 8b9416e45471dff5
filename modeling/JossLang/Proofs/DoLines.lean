import JossLang.Proofs.LineRuns
import JossLang.Proofs.ProgramsAlike
import JossLang.Proofs.RoundTrip

/-!
# Plain lines with `Do`

`Do step 1.1.` and `Do part 1.` are read as what they say (`parse_doStep`,
`parse_doPart`), and run a step as its command and a part as its steps.
-/

namespace JossLang

def doStep (literal : String) : String := "Do step " ++ literal ++ "."

def doPart (part : String) : String := "Do part " ++ part ++ "."

def Command.IsPlainDo (goal : Goal) (c : Command) : Prop := ∃ p q, c = ⟨p, .perform q goal .once, none⟩

/-! ## Reading -/

section
variable {literal : String} (hl : Numeral literal.toList)
include hl

theorem lays_plainDo (kw : Keyword) :
    Lays [.keyword .perform, .keyword kw, .number literal, .period]
      ("Do ".toList ++ (kw.spelling.toList ++ ' ' :: (literal.toList ++ ['.']))) := by
  have hend : ∀ c ∈ [' '].head?, isWordChar c = false := by
    rintro c ⟨⟩
    exact isWordChar_mark (by decide)
  have hperiod : Lays [.period] ['.'] := .lexeme trivial (by nofun) .nil
  have hnumber : Lays [.number literal, .period] (literal.toList ++ ['.']) := by
    refine .lexeme hl ⟨?_, ?_⟩ hperiod
    · rintro c ⟨⟩
      decide
    · rintro d ds ⟨⟩
  have hkw : Lays [.keyword kw, .number literal, .period] (kw.spelling.toList ++ ' ' :: (literal.toList ++ ['.'])) :=
    .lexeme trivial hend (.blank (by decide) hnumber)
  exact .lexeme trivial hend (.blank (by decide) hkw)

omit hl in
theorem reads_plainDo (src : Source) {kw : Keyword} {goal : Goal}
    (hg : ∀ k, Reads readGoal (.keyword kw :: .number literal :: k) (· = goal) k) :
    Reads (readLine src) [.keyword .perform, .keyword kw, .number literal, .period]
      (fun u => ∃ c, u = .direct c ∧ c.IsPlainDo goal) [] := by
  have hverb : ∀ t, t.lexeme = .keyword .perform → Reads (readVerb src t) [.keyword kw, .number literal, .period]
      (fun v => ∃ q, v = .perform q goal .once) [.period] := fun t ht => by
    rw [readVerb, ht]
    refine (hg _).bind fun g hg => ?_
    subst hg
    have honce : Loop.once.Writes [] := rfl
    have hloop : Reads (readLoop src) [.period] (·.bare = .once) [.period] := reads_loop src honce (.inl rfl) []
    refine hloop.bind fun a ha => ?_
    cases a with
    | once => exact reads_pure ⟨_, rfl⟩
    | times _ | each _ _ => cases ha
  have hcommand : Reads (readCommand src) [.keyword .perform, .keyword kw, .number literal, .period]
      (·.IsPlainDo goal) [.period] := by
    rw [readCommand]
    refine (reads_next _ _).bind fun t ht => (hverb t ht).bind fun v hv => ?_
    refine (reads_accept_of_ne _ _ (by simp)).bind fun c hc => ?_
    subst hc
    obtain ⟨q, rfl⟩ := hv
    exact reads_pure ⟨_, _, rfl⟩
  rw [readLine]
  refine (reads_peek _ _).bind fun t ht => ?_
  rw [ht]
  exact hcommand.bind fun c hc => (reads_expectKind .period _ _).discard.bind fun _ _ => reads_pure ⟨c, rfl, hc⟩

theorem parse_plainDo {kw : Keyword} {goal : Goal}
    (hg : ∀ k, Reads readGoal (.keyword kw :: .number literal :: k) (· = goal) k) (file : String) (line : Int) :
    ∃ c : Command, c.IsPlainDo goal ∧
      Line.parse ⟨file, line, "Do ".toList ++ (kw.spelling.toList ++ ' ' :: (literal.toList ++ ['.']))⟩ = .ok (.direct c) := by
  let src : Source := ⟨file, line, "Do ".toList ++ (kw.spelling.toList ++ ' ' :: (literal.toList ++ ['.']))⟩
  have hperiod : [Lexeme.keyword .perform, .keyword kw, .number literal, .period] =
      [.keyword .perform, .keyword kw, .number literal] ++ [.period] := rfl
  have hlexemes : (Stream.ofLine src.text).lexemes = [.keyword .perform, .keyword kw, .number literal, .period] :=
    (lays_plainDo hl kw).lexemes_tokensOf (by simp) hperiod
  obtain ⟨u, s, hrun, ⟨c, rfl, hc⟩, -⟩ := reads_plainDo src hg _ hlexemes
  exact ⟨c, hc, by rw [Line.parse, Line.read, hrun]⟩

theorem parse_doStep {n : StepNumber} (hn : StepNumber.ofLiteral literal = .ok n) (file : String) (line : Int) :
    ∃ c : Command, c.IsPlainDo (.step n) ∧ Line.parse ⟨file, line, (doStep literal).toList⟩ = .ok (.direct c) := by
  have htext : (doStep literal).toList =
      "Do ".toList ++ (Keyword.step.spelling.toList ++ ' ' :: (literal.toList ++ ['.'])) := by
    rw [doStep, String.toList_append, String.toList_append, List.append_assoc]
    rfl
  rw [htext]
  exact parse_plainDo hl (reads_goal_step hn) file line

theorem parse_doPart {part : String} (hp : partOf literal = .ok part) (file : String) (line : Int) :
    ∃ c : Command, c.IsPlainDo (.part part) ∧ Line.parse ⟨file, line, (doPart literal).toList⟩ = .ok (.direct c) := by
  have htext : (doPart literal).toList =
      "Do ".toList ++ (Keyword.part.spelling.toList ++ ' ' :: (literal.toList ++ ['.'])) := by
    rw [doPart, String.toList_append, String.toList_append, List.append_assoc]
    rfl
  rw [htext]
  exact parse_plainDo hl (reads_goal_part hp) file line

end

/-! ## Running -/

section
variable {ω : Type} {worlds : ω → ω → Prop} {setup : Setup ω} (hd : setup.Detached worlds)
include hd

theorem evaluateLine_plainDo {text : String} {goal : Goal} (hparse : ∀ file line,
      ∃ c : Command, c.IsPlainDo goal ∧ Line.parse ⟨file, line, text.toList⟩ = .ok (.direct c)) (s : State ω) :
    ∃ q s₁, s.Unseen worlds s₁ ∧
      Concludes worlds ((runGoal (Comparison.stepRunner setup setup.limits.steps) goal q).run s₁) (evaluateLine setup text s) := by
  obtain ⟨s₁, hs, hx⟩ := evaluateLine_run hd text s
  obtain ⟨c, ⟨p, q, rfl⟩, hc⟩ := hparse setup.file (s.lineNumber + 1 : Nat)
  rw [hc] at hx
  obtain ⟨s₂, hs', hgoal⟩ := perform_run hd setup.limits.steps p q goal s₁
  exact ⟨q, s₂, hs.trans hs', hgoal.concludes hx⟩

section
variable {literal : String} (hl : Numeral literal.toList)
include hl

theorem evaluateLine_doStep {n : StepNumber} (hn : StepNumber.ofLiteral literal = .ok n) {s : State ω} {step : Step}
    (hstep : s.program.step? n = some step) : ∃ q s₁, s.Unseen worlds s₁ ∧
      Concludes worlds ((Comparison.stepRunner setup setup.limits.steps step q).run s₁)
        (evaluateLine setup (doStep literal) s) := by
  obtain ⟨q, s₁, hs, hx⟩ := evaluateLine_plainDo hd (parse_doStep hl hn) s
  rw [Comparison.runGoal_run, hs.program, Program.stepsOf, hstep] at hx
  refine ⟨q, s₁, hs, ?_⟩
  have hone : runSteps (Comparison.stepRunner setup setup.limits.steps) q [step] =
      Comparison.stepRunner setup setup.limits.steps step q := bind_pure_unit
  exact hone ▸ hx

theorem evaluateLine_doPart {part : String} (hp : partOf literal = .ok part) {s : State ω} (ho : s.program.Ordered)
    (hpart : s.program.hasPart part) : ∃ q s₁, s.Unseen worlds s₁ ∧
      Concludes worlds ((runSteps (Comparison.stepRunner setup setup.limits.steps) q (s.program.steps part)).run s₁)
        (evaluateLine setup (doPart literal) s) := by
  obtain ⟨q, s₁, hs, hx⟩ := evaluateLine_plainDo hd (parse_doPart hl hp) s
  rw [Comparison.runGoal_run, hs.program, ho.stepsOf_part hpart] at hx
  exact ⟨q, s₁, hs, hx⟩

end

end

end JossLang
