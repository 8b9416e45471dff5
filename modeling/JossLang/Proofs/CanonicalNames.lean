import JossLang.Proofs.Spellings

/-!
# Canonical names

However a literal is written, the step that it names and the part of this step are spelled in ASCII digits, the part
without a zero in front and the step without one at its end. These spellings name the same step and the same part again,
and a whole number names the part exactly if it has the part's value: `canonical_names`.
-/

namespace JossLang

/-! ## Whole numbers -/

structure PlainDigits (ds : List Char) : Prop where
  ascii : AsciiDigits ds
  ne_nil : ds ≠ []
  first : ds.head? = some '0' → ds = ['0']

theorem plainDigits_digitsOf (n : Nat) : PlainDigits (digitsOf n) := by
  refine ⟨ascii_digitsOf n, digitsOf_ne_nil n, fun hfirst => ?_⟩
  by_cases h0 : n = 0
  · subst h0
    decide
  · exact absurd hfirst (head?_digitsOf h0)

def PlainInteger (cs : List Char) : Prop :=
  ∃ ds, PlainDigits ds ∧ (cs = ds ∨ ds ≠ ['0'] ∧ cs = '-' :: ds)

theorem plainInteger_spellInt (n : Int) : PlainInteger (spellInt n).toList := by
  refine ⟨digitsOf n.natAbs, plainDigits_digitsOf _, ?_⟩
  rw [toList_spellInt]
  by_cases hn : n < 0
  · refine .inr ⟨fun h0 => ?_, if_pos hn⟩
    have hv := digitsValue_digitsOf n.natAbs
    rw [h0, show digitsValue ['0'] = 0 by decide] at hv
    omega
  · exact .inl (if_neg hn)

theorem partOf_eq_spellInt_iff {t : String} (h : WholeLiteral t.toList)
    (hl : (splitSign t.toList).2.length ≤ maximalDigits) (n : Int) :
    partOf t = .ok (spellInt n) ↔ wholeValue t.toList = n := by
  have hw := partOf_whole h
  rw [if_pos hl, String.ofList_toList] at hw
  rw [hw]
  exact ⟨fun he => spellInt_inj (Except.ok.inj he), fun he => by rw [he]⟩

/-! ## Signs -/

theorem SignedDecimal.mem_of_negative {cs : List Char} {d : SignedDecimal} (h : ofText? cs = some d)
    (hn : d.negative = true) : '-' ∈ cs := by
  have hs : (splitSign ((trim cs).filter (· ≠ '_'))).1 = true := by
    unfold ofText? at h
    grind
  have hm : '-' ∈ (trim cs).filter (· ≠ '_') := by
    rcases splitSign_cases ((trim cs).filter (· ≠ '_')) with hc | hc | hc
    · unfold splitSign at hs
      split at hs
      · next he => rw [he]; exact List.mem_cons_self
      · cases hs
      · cases hs
    · rw [hc]; exact List.mem_cons_self
    · rw [hc] at hs; cases hs
  exact mem_of_mem_trim (List.mem_of_mem_filter hm)

namespace StepNumber

def unsigned (d : SignedDecimal) : StepNumber := ofDecimal { d with negative := false }

theorem positional_signed (d : SignedDecimal) (negative : Bool) :
    (SignedDecimal.rounded { d with negative := negative }).positional = d.rounded.positional := by
  unfold SignedDecimal.rounded
  dsimp only
  split <;> rfl

theorem ofDecimal_signed (d : SignedDecimal) (negative : Bool) : ofDecimal { d with negative := negative } =
    ⟨spellInt (if negative then -(digitsValue d.rounded.positional.1 : Int) else digitsValue d.rounded.positional.1),
      String.ofList d.rounded.positional.2⟩ := by
  rw [ofDecimal, positional_signed]

/-- A minus sign stays before a part that is not zero. -/
def keepsSign (d : SignedDecimal) : Bool := d.negative && digitsValue d.rounded.positional.1 != 0

theorem ofDecimal_keepsSign (d : SignedDecimal) : ofDecimal d = ofDecimal { d with negative := keepsSign d } := by
  rw [show ofDecimal d = ofDecimal { d with negative := d.negative } from rfl, ofDecimal_signed, ofDecimal_signed, keepsSign]
  cases d.negative with
  | false => rfl
  | true =>
    by_cases hk : digitsValue d.rounded.positional.1 = 0
    · simp [hk]
    · simp [hk]

theorem toList_spelling_ofDecimal (d : SignedDecimal) :
    (ofDecimal d).spelling.toList = Double.signed (keepsSign d) (unsigned d).spelling.toList := by
  rw [ofDecimal_keepsSign, unsigned, ofDecimal_signed, ofDecimal_signed, keepsSign]
  simp only [spelling, String.toList_append, toList_spellInt, Double.signed]
  generalize digitsValue d.rounded.positional.1 = k
  cases d.negative with
  | false => simp
  | true =>
    by_cases hk : k = 0
    · simp [hk]
    · simp [hk, Nat.pos_of_ne_zero hk]

section
variable {d : SignedDecimal} (hne : d.rounded.positional.2 ≠ [])
include hne

theorem canonical_unsigned : (unsigned d).Canonical :=
  canonical_ofDecimal rfl (by rwa [positional_signed])

theorem ofLiteral_unsigned : ofLiteral (unsigned d).spelling = .ok (unsigned d) := by
  have hc := canonical_unsigned hne
  have hv := hc.numeralValue_spelling
  have hk : SignedDecimal.Kept (unsigned d).value :=
    value_ofDecimal (d := { d with negative := false }) rfl ▸ SignedDecimal.kept_rounded _
  have hl : (unsigned d).step.toList.length ≤ 1000026 := by
    rw [unsigned, ofDecimal_signed, String.toList_ofList]
    exact d.length_rounded_fraction
  exact (ofLiteral_of_kept hc.pointed (hv ▸ hk) (hl.trans (by decide)) (hv ▸ hc.not_whole)).mpr ⟨hc, hv.symm⟩

theorem ofLiteral_ofDecimal : ofLiteral (ofDecimal d).spelling = .ok (ofDecimal d) := by
  have hp := (canonical_unsigned hne).pointed
  have hm := ofLiteral_unsigned hne
  have hposs := possible_of_ofLiteral hp hm
  let e := decimalOf (unsigned d).part.toList (unsigned d).step.toList
  have he : SignedDecimal.ofText? (unsigned d).spelling.toList = some e := by rw [hp.ofText?_eq, if_pos hposs]
  have hs : SignedDecimal.ofText? (ofDecimal d).spelling.toList = some { e with negative := keepsSign d } := by
    rw [toList_spelling_ofDecimal, hp.ofText?_signed, if_pos hposs]
  rw [ofLiteral_eq hp.mem_point he] at hm
  split at hm
  · cases hm
  · next hne' =>
    -- the decimal read from the spelling has the digits of `d`, so the sign makes one number of both
    have heq : ofDecimal { e with negative := false } = unsigned d := Except.ok.inj hm
    rw [unsigned, ofDecimal_signed, ofDecimal_signed, StepNumber.mk.injEq] at heq
    have hk : (digitsValue e.rounded.positional.1 : Int) = digitsValue d.rounded.positional.1 := spellInt_inj heq.1
    rw [ofLiteral_eq (by simp [spelling]) hs, positional_signed, if_neg hne', ofDecimal_signed, hk, heq.2,
      ofDecimal_keepsSign d, ofDecimal_signed]

end

theorem ofLiteral_spelling_self {s : String} {n : StepNumber} (h : ofLiteral s = .ok n) :
    ofLiteral n.spelling = .ok n := by
  obtain ⟨d, -, hne, rfl⟩ := ofLiteral_eq_ok h
  exact ofLiteral_ofDecimal hne

theorem exists_part_eq {s : String} {n : StepNumber} (h : ofLiteral s = .ok n) : ∃ k, n.part = spellInt k := by
  obtain ⟨d, -, -, rfl⟩ := ofLiteral_eq_ok h
  exact ⟨_, rfl⟩

theorem plainInteger_part {s : String} {n : StepNumber} (h : ofLiteral s = .ok n) : PlainInteger n.part.toList := by
  obtain ⟨k, hk⟩ := exists_part_eq h
  rw [hk]
  exact plainInteger_spellInt k

theorem plainDigits_part {s : String} {n : StepNumber} (h : ofLiteral s = .ok n) (hs : '-' ∉ s.toList) :
    PlainDigits n.part.toList := by
  obtain ⟨d, hd, -, rfl⟩ := ofLiteral_eq_ok h
  cases hn : d.negative with
  | true => exact absurd (SignedDecimal.mem_of_negative hd hn) hs
  | false =>
    rw [ofDecimal, hn, if_neg Bool.false_ne_true, spellInt_natCast, spellNat, String.toList_ofList]
    exact plainDigits_digitsOf _

end StepNumber

/-- **Canonical names.** The step and the part that a literal names are spelled canonically: they name themselves, and
the whole numbers that name the part are those of its value. -/
theorem canonical_names {s : String} {n : StepNumber} (h : StepNumber.ofLiteral s = .ok n) :
    PlainInteger n.part.toList ∧ ('-' ∉ s.toList → PlainDigits n.part.toList) ∧
    (AsciiDigits n.step.toList ∧ n.step.toList ≠ [] ∧ n.step.toList.getLast? ≠ some '0') ∧
    StepNumber.ofLiteral (n.part ++ "." ++ n.step) = .ok n ∧ partOf n.part = .ok n.part ∧
    ∀ t : String, WholeLiteral t.toList → (splitSign t.toList).2.length ≤ maximalDigits →
      (partOf t = .ok n.part ↔ wholeValue t.toList = wholeValue n.part.toList) := by
  refine ⟨StepNumber.plainInteger_part h, StepNumber.plainDigits_part h, IsStepName.digits ⟨s, n, h, rfl⟩,
    StepNumber.ofLiteral_spelling_self h, StepNumber.partOf_part h, fun t ht hl => ?_⟩
  obtain ⟨k, hk⟩ := StepNumber.exists_part_eq h
  rw [hk, wholeValue_spellInt]
  exact partOf_eq_spellInt_iff ht hl k

/-- Rounding carries over all digits behind the point, and digits of another script name the part. -/
theorem canonical_names_of_carry :
    StepNumber.ofLiteral "-٠٧.09999999999999999999999999996" = .ok ⟨"-7", "1"⟩ ∧
    partOf "-٠٠٧" = .ok "-7" := by
  have h : StepNumber.ofLiteral "-٠٧.09999999999999999999999999996" = .ok ⟨"-7", "1"⟩ := by decide +kernel
  obtain ⟨-, -, -, -, -, hw⟩ := canonical_names h
  have ht : WholeLiteral "-٠٠٧".toList := ⟨by decide +kernel, List.all_eq_true.mp (by decide +kernel)⟩
  exact ⟨h, (hw "-٠٠٧" ht (by decide +kernel)).mpr (by decide +kernel)⟩

end JossLang
