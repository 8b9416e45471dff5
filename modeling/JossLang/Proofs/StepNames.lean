import JossLang.Double.Literal
import JossLang.Double.Written
import JossLang.Proofs.Characters
import JossLang.Proofs.Decimals

/-!
# Literals and the step numbers they name

A literal with a point denotes a decimal, and names the step number whose value
is that decimal, rounded: `ofLiteral_eq_ok_iff`. A step number is known from its
value, so the canonical spelling of a step number names it again.
-/

namespace JossLang

/-! ## Literals -/

/-- The literals of numbers: digits, which may have a point and digits behind them, or a point with
digits behind it. -/
inductive Numeral : List Char → Prop where
  | whole {ds : List Char} (hne : ds ≠ []) (hd : ∀ c ∈ ds, isDigit c) : Numeral ds
  | pointed {ds fs : List Char} (hd : ∀ c ∈ ds, isDigit c) (hne : fs ≠ []) (hf : ∀ c ∈ fs, isDigit c) :
    Numeral (ds ++ '.' :: fs)

def numeralValue (cs : List Char) : ℚ :=
  digitsValue (Double.splitPoint cs).1 + fractionValue (Double.splitPoint cs).2

structure Pointed (cs ds fs : List Char) : Prop where
  eq : cs = ds ++ '.' :: fs
  whole : ∀ c ∈ ds, isDigit c
  ne_nil : fs ≠ []
  fraction : ∀ c ∈ fs, isDigit c

theorem Numeral.pointed_of_mem {cs : List Char} (h : Numeral cs) (hp : '.' ∈ cs) : ∃ ds fs, Pointed cs ds fs := by
  cases h with
  | whole hne hd => exact absurd rfl (ne_of_isDigit (hd _ hp) (by decide))
  | pointed hd hne hf => exact ⟨_, _, rfl, hd, hne, hf⟩

namespace Pointed

variable {cs ds fs : List Char} (h : Pointed cs ds fs)
include h

theorem numeral : Numeral cs := h.eq ▸ .pointed h.whole h.ne_nil h.fraction

theorem mem_point : '.' ∈ cs := by rw [h.eq]; simp

theorem splitPoint_eq : Double.splitPoint cs = (ds, fs) := by
  have hd : ∀ c ∈ ds, decide (c ≠ '.') = true := fun c hc => by simpa using ne_of_isDigit (h.whole c hc) (by decide)
  unfold Double.splitPoint
  rw [h.eq, List.takeWhile_append_of_pos hd, List.dropWhile_append_of_pos hd]
  simp

theorem numeralValue_eq : numeralValue cs = digitsValue ds + fractionValue fs := by
  rw [numeralValue, h.splitPoint_eq]

theorem digit_or_point {c : Char} (hc : c ∈ cs) : isDigit c ∨ c = '.' := by
  rw [h.eq] at hc
  rcases List.mem_append.mp hc with hc | hc
  · exact .inl (h.whole c hc)
  · rcases List.mem_cons.mp hc with rfl | hc
    · exact .inr rfl
    · exact .inl (h.fraction c hc)

theorem mem_signed {negative : Bool} {c : Char} (hc : c ∈ Double.signed negative cs) : isDigit c ∨ c = '.' ∨ c = '-' := by
  cases negative with
  | false => exact (h.digit_or_point hc).imp id .inl
  | true =>
    rcases List.mem_cons.mp hc with hc | hc
    · exact .inr (.inr hc)
    · exact (h.digit_or_point hc).imp id .inl

theorem takeWhile_isDigit : cs.takeWhile isDigit = ds := by
  rw [h.eq, List.takeWhile_append_of_pos h.whole, List.takeWhile_cons_of_neg (by decide), List.append_nil]

theorem dropWhile_isDigit : cs.dropWhile isDigit = '.' :: fs := by
  rw [h.eq, List.dropWhile_append_of_pos h.whole, List.dropWhile_cons_of_neg (by decide)]

end Pointed

/-! ## Reading decimals -/

theorem splitSign_eq {cs : List Char} (h : ∀ c ∈ cs.head?, c ≠ '-' ∧ c ≠ '+') : splitSign cs = (false, cs) := by
  unfold splitSign
  split
  · exact absurd rfl (h '-' (by simp)).1
  · exact absurd rfl (h '+' (by simp)).2
  · rfl

/-- Neither a digit nor the point is taken for a sign. -/
theorem splitSign_signed (negative : Bool) {cs : List Char} (h : ∀ c ∈ cs.head?, isDigit c ∨ c = '.') :
    splitSign (Double.signed negative cs) = (negative, cs) := by
  cases negative with
  | true => rfl
  | false =>
    refine splitSign_eq fun c hc => ?_
    rcases h c hc with hc | rfl
    · exact ⟨ne_of_isDigit hc (by decide), ne_of_isDigit hc (by decide)⟩
    · decide

def decimalOf (ds fs : List Char) : SignedDecimal := ⟨false, digitsValue (ds ++ fs), -fs.length⟩

theorem magnitude_decimalOf (ds fs : List Char) : (decimalOf ds fs).magnitude = digitsValue ds + fractionValue fs := by
  simp only [decimalOf, SignedDecimal.magnitude, fractionValue, digitsValue_append, zpow_neg, zpow_natCast]
  push_cast
  field_simp

def IsPossible (ds fs : List Char) : Prop :=
  isPossiblePower (digitsOf (digitsValue (ds ++ fs))).length (-fs.length) = true

instance (ds fs : List Char) : Decidable (IsPossible ds fs) := inferInstanceAs (Decidable (_ = true))

theorem Pointed.ofText?_signed {cs ds fs : List Char} (h : Pointed cs ds fs) (negative : Bool) :
    SignedDecimal.ofText? (Double.signed negative cs) =
      if IsPossible ds fs then some { decimalOf ds fs with negative := negative } else none := by
  have hblank : ∀ c ∈ Double.signed negative cs, isBlank c = false := fun c hc => by
    rcases h.mem_signed hc with hc | rfl | rfl
    · exact not_blank_of_isDigit hc
    · decide
    · decide
  have htrim : trim (Double.signed negative cs) = Double.signed negative cs :=
    trim_eq (fun c hc => hblank c (List.mem_of_head? hc)) (fun c hc => hblank c (List.mem_of_getLast? hc))
  have hfilter : (Double.signed negative cs).filter (· ≠ '_') = Double.signed negative cs := by
    refine List.filter_eq_self.mpr fun c hc => ?_
    rcases h.mem_signed hc with hc | rfl | rfl
    · simpa using ne_of_isDigit hc (by decide)
    · decide
    · decide
  have hsign : splitSign (Double.signed negative cs) = (negative, cs) :=
    splitSign_signed negative fun c hc => h.digit_or_point (List.mem_of_head? hc)
  have hfrac : fs.takeWhile isDigit = fs := List.takeWhile_eq_self_iff.mpr h.fraction
  have hrest : fs.dropWhile isDigit = [] := List.dropWhile_eq_nil_iff.mpr h.fraction
  unfold SignedDecimal.ofText?
  rw [htrim, hfilter, hsign]
  simp only [h.takeWhile_isDigit, h.dropWhile_isDigit, hfrac, hrest, exponentOf?, zero_sub]
  rw [if_neg (by simp [h.ne_nil])]
  rfl

theorem Pointed.ofText?_eq {cs ds fs : List Char} (h : Pointed cs ds fs) :
    SignedDecimal.ofText? cs = if IsPossible ds fs then some (decimalOf ds fs) else none := h.ofText?_signed false

/-! ## Step numbers -/

namespace StepNumber

def value (n : StepNumber) : ℚ := digitsValue n.part.toList + fractionValue n.step.toList

/-- A part without a zero in front, and a step without a zero at its end. -/
structure Canonical (n : StepNumber) : Prop where
  part : ∃ k, n.part = spellNat k
  ascii : AsciiDigits n.step.toList
  ne_nil : n.step.toList ≠ []
  last : n.step.toList.getLast? ≠ some '0'

/-- **Uniqueness.** Two canonical step numbers of one value are the same. -/
theorem Canonical.eq_of_value {n m : StepNumber} (hn : n.Canonical) (hm : m.Canonical) (h : n.value = m.value) :
    n = m := by
  obtain ⟨hp, hf⟩ := digit_add_fraction_inj (fractionValue_nonneg _) (fractionValue_lt_one _)
    (fractionValue_nonneg _) (fractionValue_lt_one _) h
  obtain ⟨j, hj⟩ := hn.part
  obtain ⟨k, hk⟩ := hm.part
  have hjk : j = k := by simpa [hj, hk, spellNat] using hp
  have hs := String.toList_inj.mp (fractionValue_inj hn.ascii hm.ascii hn.last hm.last hf)
  cases n; cases m
  simp_all

theorem Canonical.not_whole {n : StepNumber} (h : n.Canonical) : ¬ IsWhole n.value := by
  rintro ⟨k, hk⟩
  have := (digit_add_fraction_inj (fractionValue_nonneg _) (fractionValue_lt_one _) (le_refl 0) one_pos
    (hk.trans (add_zero (k : ℚ)).symm)).2
  exact h.ne_nil ((fractionValue_eq_zero h.ascii h.last).mp this)

theorem spellInt_natCast (n : Nat) : spellInt n = spellNat n := by
  unfold spellInt spellNat
  rw [if_neg (by omega)]
  rfl

def ofDecimal (d : SignedDecimal) : StepNumber :=
  ⟨spellInt (if d.negative then -(digitsValue d.rounded.positional.1 : Int) else digitsValue d.rounded.positional.1),
    String.ofList d.rounded.positional.2⟩

theorem ofLiteral_eq {s : String} (hp : '.' ∈ s.toList) {d : SignedDecimal}
    (hd : SignedDecimal.ofText? s.toList = some d) :
    ofLiteral s = if d.rounded.positional.2 = [] then .error .stepWithoutFraction else .ok (ofDecimal d) := by
  unfold ofLiteral
  rw [if_neg (by simpa using hp), hd]
  rfl

theorem ofLiteral_eq_ok {s : String} {n : StepNumber} (h : ofLiteral s = .ok n) :
    ∃ d, SignedDecimal.ofText? s.toList = some d ∧ d.rounded.positional.2 ≠ [] ∧ n = ofDecimal d := by
  by_cases hp : '.' ∈ s.toList
  · cases hd : SignedDecimal.ofText? s.toList with
    | none => simp [ofLiteral, hp, hd] at h
    | some d =>
      rw [ofLiteral_eq hp hd] at h
      split at h
      · cases h
      · next hne => exact ⟨d, rfl, hne, by cases h; rfl⟩
  · simp [ofLiteral, hp] at h

theorem canonical_ofDecimal {d : SignedDecimal} (hn : d.negative = false) (hne : d.rounded.positional.2 ≠ []) :
    (ofDecimal d).Canonical := by
  refine ⟨⟨digitsValue d.rounded.positional.1, ?_⟩, ?_, ?_, ?_⟩
  · simp [ofDecimal, hn, spellInt_natCast]
  · simpa [ofDecimal] using d.rounded.positional_fraction.1
  · simpa [ofDecimal] using hne
  · simpa [ofDecimal] using d.rounded.positional_fraction.2

theorem value_ofDecimal {d : SignedDecimal} (hn : d.negative = false) : (ofDecimal d).value = d.rounded.magnitude := by
  rw [← d.rounded.positional_value]
  simp [value, ofDecimal, hn, spellInt_natCast, spellNat]

def namedValue (ds fs : List Char) : ℚ := (decimalOf ds fs).rounded.magnitude

section
variable {s : String} {ds fs : List Char} (h : Pointed s.toList ds fs)
include h

theorem ofLiteral_of_not_possible (hp : ¬ IsPossible ds fs) : ofLiteral s = .error .malformedStep := by
  unfold ofLiteral
  rw [if_neg (by simpa using h.mem_point), h.ofText?_eq, if_neg hp]

/-- **Naming.** A literal names the canonical step number of its rounded value. -/
theorem ofLiteral_eq_ok_iff (hp : IsPossible ds fs) {n : StepNumber} :
    ofLiteral s = .ok n ↔ n.Canonical ∧ n.value = namedValue ds fs := by
  have hd : SignedDecimal.ofText? s.toList = some (decimalOf ds fs) := by rw [h.ofText?_eq, if_pos hp]
  rw [ofLiteral_eq h.mem_point hd]
  constructor
  · intro hn
    split at hn
    · cases hn
    · next hne =>
      cases hn
      exact ⟨canonical_ofDecimal rfl hne, value_ofDecimal rfl⟩
  · rintro ⟨hc, hv⟩
    have hne : (decimalOf ds fs).rounded.positional.2 ≠ [] := fun hnil =>
      hc.not_whole (hv ▸ (SignedDecimal.isWhole_iff _).mpr hnil)
    rw [if_neg hne]
    exact congrArg _ ((canonical_ofDecimal rfl hne).eq_of_value hc ((value_ofDecimal rfl).trans hv.symm))

theorem ofLiteral_eq_error_iff (hp : IsPossible ds fs) :
    (∃ e, ofLiteral s = .error e) ↔ IsWhole (namedValue ds fs) := by
  have hd : SignedDecimal.ofText? s.toList = some (decimalOf ds fs) := by rw [h.ofText?_eq, if_pos hp]
  rw [ofLiteral_eq h.mem_point hd, namedValue, SignedDecimal.isWhole_iff]
  split
  · next hnil => exact ⟨fun _ => hnil, fun _ => ⟨_, rfl⟩⟩
  · next hne => exact ⟨fun ⟨_, he⟩ => absurd he (by simp), fun hnil => absurd hnil hne⟩

end

end StepNumber

end JossLang
