import JossLang.Proofs.StepNames

/-!
# The order of steps

Decimals are compared by the places and the digits of their magnitudes. Steps
are ordered as the fractions that their digits denote.
-/

namespace JossLang

theorem fractionLt_iff : ∀ as bs : List Char, fractionLt as bs = true ↔ fractionValue as < fractionValue bs
  | as, [] => by
    have := fractionValue_nonneg as
    simp [fractionLt, this]
  | [], d :: ds => by
    have ih := fractionLt_iff [] ds
    have h0 := fractionValue_nonneg ds
    rw [fractionValue_nil] at ih ⊢
    rw [fractionValue_cons, fractionLt]
    simp only [Bool.or_eq_true, bne_iff_ne, ih]
    constructor
    · rintro (h | h)
      · have : (0 : ℚ) < digitValue d := by exact_mod_cast Nat.pos_of_ne_zero h
        linarith
      · have : (0 : ℚ) ≤ digitValue d := by positivity
        linarith
    · intro h
      by_cases hd : digitValue d = 0
      · right; rw [hd] at h; simpa using h
      · exact .inl hd
  | c :: cs, d :: ds => by
    have ih := fractionLt_iff cs ds
    have hc := fractionValue_nonneg cs
    have hc1 := fractionValue_lt_one cs
    have hd := fractionValue_nonneg ds
    have hd1 := fractionValue_lt_one ds
    rw [fractionValue_cons, fractionValue_cons, fractionLt, div_lt_div_iff_of_pos_right (by norm_num)]
    split
    · next h => rw [h, ih, add_lt_add_iff_left]
    · next h =>
      rw [decide_eq_true_eq]
      rcases Nat.lt_or_gt_of_ne h with hlt | hgt
      · -- a smaller digit decides, since the digits behind it never add up to one
        have : (digitValue c : ℚ) + 1 ≤ digitValue d := by exact_mod_cast hlt
        exact ⟨fun _ => by linarith, fun _ => hlt⟩
      · have : (digitValue d : ℚ) + 1 ≤ digitValue c := by exact_mod_cast hgt
        exact ⟨fun hlt => by omega, fun hlt => by linarith⟩

namespace SignedDecimal

def place (d : SignedDecimal) : Int := d.power + (digitsOf d.coefficient).length

theorem magnitude_eq_place (d : SignedDecimal) :
    d.magnitude = fractionValue (digitsOf d.coefficient) * 10 ^ d.place := by
  unfold magnitude fractionValue place
  rw [digitsValue_digitsOf, zpow_add₀ (by norm_num), zpow_natCast]
  field_simp

theorem tenth_le_fraction {n : Nat} (h : n ≠ 0) : 1 / 10 ≤ fractionValue (digitsOf n) := by
  have hl := pow_length_digitsOf_le h
  have hp := List.length_pos_iff.mpr (digitsOf_ne_nil n)
  unfold fractionValue
  rw [digitsValue_digitsOf, div_le_div_iff₀ (by norm_num) (by positivity)]
  have hpow : 10 ^ (digitsOf n).length = 10 * 10 ^ ((digitsOf n).length - 1) := by
    rw [← Nat.pow_succ']; congr 1; omega
  have : 10 ^ (digitsOf n).length ≤ n * 10 := by omega
  rw [one_mul]
  exact_mod_cast this

theorem magnitude_pos {d : SignedDecimal} (h : d.coefficient ≠ 0) : 0 < d.magnitude := by
  have : (0 : ℚ) < d.coefficient := by exact_mod_cast Nat.pos_of_ne_zero h
  unfold magnitude
  positivity

theorem magnitude_lt_of_place {a b : SignedDecimal} (hb : b.coefficient ≠ 0) (h : a.place < b.place) :
    a.magnitude < b.magnitude := by
  rw [magnitude_eq_place, magnitude_eq_place]
  have h1 := fractionValue_lt_one (digitsOf a.coefficient)
  have h2 := tenth_le_fraction hb
  have hpos : (0 : ℚ) < 10 ^ a.place := by positivity
  calc fractionValue (digitsOf a.coefficient) * 10 ^ a.place < 1 * 10 ^ a.place :=
        mul_lt_mul_of_pos_right h1 hpos
    _ = 1 / 10 * 10 ^ (a.place + 1) := by rw [zpow_add_one₀ (by norm_num)]; ring
    _ ≤ 1 / 10 * 10 ^ b.place :=
        mul_le_mul_of_nonneg_left (zpow_le_zpow_right₀ (by norm_num) (by omega)) (by norm_num)
    _ ≤ fractionValue (digitsOf b.coefficient) * 10 ^ b.place :=
        mul_le_mul_of_nonneg_right h2 (by positivity)

theorem magnitudeLt_iff (a b : SignedDecimal) : a.magnitudeLt b = true ↔ a.magnitude < b.magnitude := by
  unfold magnitudeLt
  dsimp only
  by_cases hb : b.coefficient = 0
  · have h0 : b.magnitude = 0 := by simp [magnitude, hb]
    have := a.magnitude_nonneg
    simp [hb, h0, this]
  by_cases ha : a.coefficient = 0
  · have h0 : a.magnitude = 0 := by simp [magnitude, ha]
    have := magnitude_pos hb
    simp [ha, hb, h0, this]
  simp only [bne_iff_ne, ne_eq, hb, not_false_eq_true, Bool.and_eq_true, Bool.or_eq_true, beq_iff_eq, ha, false_or,
    decide_eq_true_eq, true_and]
  rcases lt_trichotomy a.place b.place with h | h | h
  · exact ⟨fun _ => magnitude_lt_of_place hb h, fun _ => .inl h⟩
  · have hpos : (0 : ℚ) < 10 ^ b.place := by positivity
    rw [magnitude_eq_place a, magnitude_eq_place b, h, mul_lt_mul_iff_left₀ hpos, ← fractionLt_iff]
    unfold place at h
    constructor
    · rintro (hlt | ⟨_, hlt⟩)
      · omega
      · exact hlt
    · intro hlt
      exact .inr ⟨h, hlt⟩
  · have := magnitude_lt_of_place ha h
    unfold place at h
    constructor
    · rintro (hlt | ⟨he, _⟩) <;> omega
    · intro hlt
      linarith

end SignedDecimal

/-! ## Names of parts and steps -/

/-- The texts that name the part of a step number. -/
def IsPartName (part : String) : Prop := ∃ literal n, StepNumber.ofLiteral literal = .ok n ∧ n.part = part

def IsStepName (step : String) : Prop := ∃ literal n, StepNumber.ofLiteral literal = .ok n ∧ n.step = step

theorem point_not_mem_spellInt (n : Int) : '.' ∉ (spellInt n).toList := by
  have hd : '.' ∉ digitsOf n.natAbs := fun h => absurd (ascii_digitsOf _ _ h) (by decide)
  unfold spellInt
  split <;> simp [hd]

theorem IsPartName.no_point {part : String} (h : IsPartName part) : '.' ∉ part.toList := by
  obtain ⟨literal, n, hn, rfl⟩ := h
  obtain ⟨d, -, -, rfl⟩ := StepNumber.ofLiteral_eq_ok hn
  exact point_not_mem_spellInt _

namespace IsStepName

variable {step : String} (h : IsStepName step)
include h

theorem digits : AsciiDigits step.toList ∧ step.toList ≠ [] ∧ step.toList.getLast? ≠ some '0' := by
  obtain ⟨literal, n, hn, rfl⟩ := h
  obtain ⟨d, -, hne, rfl⟩ := StepNumber.ofLiteral_eq_ok hn
  obtain ⟨ha, hl⟩ := d.rounded.positional_fraction
  simpa [StepNumber.ofDecimal] using ⟨ha, hne, hl⟩

theorem length_le : step.toList.length ≤ 1000026 := by
  obtain ⟨literal, n, hn, rfl⟩ := h
  obtain ⟨d, -, -, rfl⟩ := StepNumber.ofLiteral_eq_ok hn
  simp only [StepNumber.ofDecimal, String.toList_ofList]
  exact d.length_rounded_fraction

theorem pointed : Pointed ('0' :: '.' :: step.toList) ['0'] step.toList :=
  ⟨rfl, List.all_eq_true.mp (by decide), h.digits.2.1, fun c hc => isDigit_ascii (h.digits.1 c hc)⟩

theorem possible : IsPossible ['0'] step.toList := by
  have hlen := h.length_le
  have hv := digitsValue_lt (['0'] ++ step.toList)
  have := (Nat.length_toDigits_le_iff (b := 10) (by decide) (by simp)).mpr hv
  simp only [List.length_append, List.length_singleton] at this
  unfold IsPossible isPossiblePower
  refine decide_eq_true ?_
  rw [digitsOf]
  omega

theorem magnitude_orderOf : (orderOf step).magnitude = fractionValue step.toList := by
  rw [orderOf, h.pointed.ofText?_eq, if_pos h.possible, Option.getD_some, magnitude_decimalOf]
  simp [show digitsValue ['0'] = 0 by decide]

theorem eq_of_fraction {step' : String} (h' : IsStepName step')
    (hv : fractionValue step.toList = fractionValue step'.toList) : step = step' :=
  String.toList_inj.mp (fractionValue_inj h.digits.1 h'.digits.1 h.digits.2.2 h'.digits.2.2 hv)

end IsStepName

theorem precedes_iff {a b : String} (ha : IsStepName a) (hb : IsStepName b) :
    precedes a b = true ↔ fractionValue a.toList < fractionValue b.toList := by
  rw [precedes, SignedDecimal.magnitudeLt_iff, ha.magnitude_orderOf, hb.magnitude_orderOf]

namespace StepNumber

/-- A part and a step as literals name them, not necessarily one literal both. -/
structure Named (n : StepNumber) : Prop where
  part : IsPartName n.part
  step : IsStepName n.step

theorem named_of_ofLiteral {literal : String} {n : StepNumber} (h : ofLiteral literal = .ok n) : n.Named :=
  ⟨⟨literal, n, h, rfl⟩, literal, n, h, rfl⟩

theorem Named.eq_of_spelling {a b : StepNumber} (ha : a.Named) (hb : b.Named) (h : a.spelling = b.spelling) :
    a = b := by
  have hl : a.part.toList ++ '.' :: a.step.toList = b.part.toList ++ '.' :: b.step.toList := by
    simpa [spelling] using congrArg String.toList h
  have hp := congrArg (List.takeWhile (· ≠ '.')) hl
  have hs := congrArg (List.dropWhile (· ≠ '.')) hl
  have hna : ∀ c ∈ a.part.toList, decide (c ≠ '.') = true := fun c hc =>
    decide_eq_true fun e => ha.part.no_point (e ▸ hc)
  have hnb : ∀ c ∈ b.part.toList, decide (c ≠ '.') = true := fun c hc =>
    decide_eq_true fun e => hb.part.no_point (e ▸ hc)
  rw [List.takeWhile_append_of_pos hna, List.takeWhile_append_of_pos hnb] at hp
  rw [List.dropWhile_append_of_pos hna, List.dropWhile_append_of_pos hnb] at hs
  have h1 : a.part = b.part := String.toList_inj.mp (by simpa using hp)
  have h2 : a.step = b.step := String.toList_inj.mp (by simpa using hs)
  cases a; cases b
  simp_all

end StepNumber

end JossLang
