import JossLang.Proofs.StepIdentity

/-!
# Spellings of steps and parts

A part is named by a numeral without a point, and a step by one with a point.
What a part or a step is called is again a numeral and names the same part or
step: `Numeral.partOf_self`, `Numeral.ofLiteral_self`.
-/

namespace JossLang

theorem dropWhile_numberBlank {cs : List Char} (h : ∀ c ∈ cs, isNumberBlank c = false) :
    cs.dropWhile isNumberBlank = cs := by
  cases cs with
  | nil => rfl
  | cons c cs => rw [List.dropWhile_cons_of_neg (by simp [h c List.mem_cons_self])]

theorem trimNumber_eq {cs : List Char} (h : ∀ c ∈ cs, isNumberBlank c = false) : trimNumber cs = cs := by
  rw [trimNumber, dropWhile_numberBlank h, dropWhile_numberBlank fun c hc => h c (List.mem_reverse.mp hc),
    List.reverse_reverse]

theorem isGroupedDigits_digits {ds : List Char} (hd : ∀ c ∈ ds, isDigit c) (hne : ds ≠ []) : isGroupedDigits ds := by
  induction ds with
  | nil => exact absurd rfl hne
  | cons c ds ih =>
    obtain ⟨hc, hds⟩ := List.forall_mem_cons.mp hd
    cases ds with
    | nil => exact hc
    | cons d ds =>
      have hd' : d ≠ '_' := ne_of_isDigit (hds d List.mem_cons_self) (by decide)
      rw [isGroupedDigits, hc, ih hds (List.cons_ne_nil _ _)]
      · rfl
      · nofun
      · rintro cs ⟨⟩
        exact hd' rfl

/-! ## Whole numbers -/

structure WholeLiteral (cs : List Char) : Prop where
  ne_nil : (splitSign cs).2 ≠ []
  digits : ∀ c ∈ (splitSign cs).2, isDigit c

def wholeValue (cs : List Char) : Int :=
  if (splitSign cs).1 then -(digitsValue (splitSign cs).2 : Int) else digitsValue (splitSign cs).2

theorem splitSign_cases (cs : List Char) :
    cs = (splitSign cs).2 ∨ cs = '-' :: (splitSign cs).2 ∨ cs = '+' :: (splitSign cs).2 := by
  unfold splitSign
  split <;> simp

theorem WholeLiteral.mem {cs : List Char} (h : WholeLiteral cs) {c : Char} (hc : c ∈ cs) :
    isDigit c ∨ c = '-' ∨ c = '+' := by
  rcases splitSign_cases cs with hcs | hcs | hcs
  · rw [hcs] at hc
    exact .inl (h.digits c hc)
  · rw [hcs] at hc
    rcases List.mem_cons.mp hc with rfl | hc
    · exact .inr (.inl rfl)
    · exact .inl (h.digits c hc)
  · rw [hcs] at hc
    rcases List.mem_cons.mp hc with rfl | hc
    · exact .inr (.inr rfl)
    · exact .inl (h.digits c hc)

theorem partOf_whole {cs : List Char} (h : WholeLiteral cs) : partOf (String.ofList cs) =
    if (splitSign cs).2.length ≤ maximalDigits then .ok (spellInt (wholeValue cs)) else .error .malformedPart := by
  have hpoint : cs.contains '.' = false := by
    by_contra hc
    rcases h.mem (c := '.') (by simpa using hc) with hd | hd | hd
    · exact absurd hd (by decide)
    · exact absurd hd (by decide)
    · exact absurd hd (by decide)
  have htrim : trimNumber cs = cs := trimNumber_eq fun c hc => by
    rcases h.mem hc with hd | rfl | rfl
    · rw [isNumberBlank, not_blank_of_isDigit hd, Bool.false_and]
    · decide
    · decide
  have hfilter : (splitSign cs).2.filter (· ≠ '_') = (splitSign cs).2 := List.filter_eq_self.mpr fun c hc => by
    simpa using ne_of_isDigit (h.digits c hc) (by decide)
  rw [partOf, String.toList_ofList, if_neg (by rw [hpoint]; decide), wholeNumber?, htrim]
  simp only [hfilter, isGroupedDigits_digits h.digits h.ne_nil, true_and]
  by_cases hl : (splitSign cs).2.length ≤ maximalDigits
  · rw [if_pos hl, if_pos hl]
    rfl
  · rw [if_neg hl, if_neg hl]

theorem splitSign_digits {ds : List Char} (hd : ∀ c ∈ ds, isDigit c) : splitSign ds = (false, ds) :=
  splitSign_eq fun c hc => by
    have hdigit := hd c (List.mem_of_mem_head? hc)
    exact ⟨ne_of_isDigit hdigit (by decide), ne_of_isDigit hdigit (by decide)⟩

theorem splitSign_digitsOf (n : Nat) : splitSign (digitsOf n) = (false, digitsOf n) :=
  splitSign_digits fun c hc => isDigit_ascii (ascii_digitsOf n c hc)

theorem toList_spellInt (n : Int) : (spellInt n).toList = if n < 0 then '-' :: digitsOf n.natAbs else digitsOf n.natAbs :=
  String.toList_ofList

theorem splitSign_spellInt (n : Int) : splitSign (spellInt n).toList = (decide (n < 0), digitsOf n.natAbs) := by
  rw [toList_spellInt]
  by_cases hn : n < 0
  · simp [hn, splitSign]
  · simp [hn, splitSign_digitsOf]

theorem wholeValue_spellInt (n : Int) : wholeValue (spellInt n).toList = n := by
  rw [wholeValue, splitSign_spellInt, digitsValue_digitsOf]
  by_cases hn : n < 0
  · rw [if_pos (decide_eq_true hn)]; omega
  · rw [if_neg (by simpa using hn)]; omega

theorem wholeLiteral_spellInt (n : Int) : WholeLiteral (spellInt n).toList := by
  refine ⟨?_, fun c hc => ?_⟩
  · rw [splitSign_spellInt]
    exact digitsOf_ne_nil _
  · rw [splitSign_spellInt] at hc
    exact isDigit_ascii (ascii_digitsOf _ c hc)

theorem spellInt_inj {m n : Int} (h : spellInt m = spellInt n) : m = n := by
  rw [← wholeValue_spellInt m, h, wholeValue_spellInt]

theorem partOf_spellInt {n : Int} (h : (digitsOf n.natAbs).length ≤ maximalDigits) :
    partOf (spellInt n) = .ok (spellInt n) := by
  have hw := partOf_whole (wholeLiteral_spellInt n)
  rwa [splitSign_spellInt, if_pos h, wholeValue_spellInt, String.ofList_toList] at hw

theorem partOf_digits {ds : List Char} (hd : ∀ c ∈ ds, isDigit c) (hne : ds ≠ []) : partOf (String.ofList ds) =
    if ds.length ≤ maximalDigits then .ok (spellNat (digitsValue ds)) else .error .malformedPart := by
  have hsign := splitSign_digits hd
  have hwhole : WholeLiteral ds := ⟨by rwa [hsign], by rwa [hsign]⟩
  have hw := partOf_whole hwhole
  rwa [wholeValue, hsign, if_neg Bool.false_ne_true, StepNumber.spellInt_natCast] at hw

theorem length_digitsOf_le {ds : List Char} (hne : ds ≠ []) : (digitsOf (digitsValue ds)).length ≤ ds.length := by
  have hpos : 0 < ds.length := List.length_pos_iff.mpr hne
  by_cases hv : digitsValue ds = 0
  · rw [hv]
    exact hpos
  · have hlt : 10 ^ ((digitsOf (digitsValue ds)).length - 1) < 10 ^ ds.length :=
      (pow_length_digitsOf_le hv).trans_lt (digitsValue_lt ds)
    have := (Nat.pow_lt_pow_iff_right (by decide)).mp hlt
    omega

theorem Numeral.partOf_self {s p : String} (hs : Numeral s.toList) (h : partOf s = .ok p) :
    Numeral p.toList ∧ partOf p = .ok p := by
  generalize hcs : s.toList = ds at hs
  obtain rfl : s = String.ofList ds := by rw [← hcs, String.ofList_toList]
  cases hs with
  | pointed =>
    rw [partOf, String.toList_ofList, if_pos (by simp)] at h
    cases h
  | whole hne hd =>
    rw [partOf_digits hd hne] at h
    split_ifs at h with hl
    cases h
    have hascii := ascii_digitsOf (digitsValue ds)
    have hdigits : ∀ c ∈ digitsOf (digitsValue ds), isDigit c := fun c hc => isDigit_ascii (hascii c hc)
    refine ⟨?_, ?_⟩
    · rw [spellNat, String.toList_ofList]
      exact .whole (digitsOf_ne_nil _) hdigits
    · rw [spellNat, partOf_digits hdigits (digitsOf_ne_nil _), if_pos ((length_digitsOf_le hne).trans hl),
        digitsValue_digitsOf, spellNat]

theorem Numeral.ofLiteral_self {s : String} {n : StepNumber} (hs : Numeral s.toList)
    (h : StepNumber.ofLiteral s = .ok n) : Numeral n.spelling.toList ∧ StepNumber.ofLiteral n.spelling = .ok n := by
  have hp : '.' ∈ s.toList := by
    by_contra hp
    rw [StepNumber.ofLiteral, if_pos (by simpa using hp)] at h
    cases h
  obtain ⟨ds, fs, hpointed⟩ := hs.pointed_of_mem hp
  exact ⟨(StepNumber.canonical_of_ofLiteral hpointed h).pointed.numeral, StepNumber.ofLiteral_spelling hpointed h⟩

/-- The number of a step that a line can store: its spelling is a numeral and names it again. -/
structure StepNumber.Spelled (n : StepNumber) : Prop where
  numeral : Numeral n.spelling.toList
  names : StepNumber.ofLiteral n.spelling = .ok n

theorem StepNumber.spelled_of_ofLiteral {s : String} {n : StepNumber} (hs : Numeral s.toList)
    (h : StepNumber.ofLiteral s = .ok n) : n.Spelled :=
  ⟨(hs.ofLiteral_self h).1, (hs.ofLiteral_self h).2⟩

theorem StepNumber.length_part_le {d : SignedDecimal} (hne : d.rounded.positional.2 ≠ []) :
    (digitsOf (digitsValue d.rounded.positional.1)).length ≤ significantDigits := by
  have hlt : (digitsValue d.rounded.positional.1 : ℚ) < 10 ^ significantDigits := by
    calc (digitsValue d.rounded.positional.1 : ℚ) ≤ d.rounded.magnitude := by
          rw [← d.rounded.positional_value]
          exact le_add_of_nonneg_right (fractionValue_nonneg _)
      _ < 10 ^ significantDigits := lt_of_kept (SignedDecimal.kept_rounded d) fun hw =>
          hne ((SignedDecimal.isWhole_iff _).mp hw)
  exact (Nat.length_toDigits_le_iff (by decide) (by decide)).mpr (by exact_mod_cast hlt)

/-- The part of a step has few digits, since some behind the point are kept. -/
theorem StepNumber.partOf_part {s : String} {n : StepNumber} (h : ofLiteral s = .ok n) : partOf n.part = .ok n.part := by
  obtain ⟨d, -, hne, rfl⟩ := ofLiteral_eq_ok h
  refine partOf_spellInt ((le_of_eq ?_).trans ((length_part_le hne).trans (by decide)))
  split
  · rw [Int.natAbs_neg, Int.natAbs_natCast]
  · rw [Int.natAbs_natCast]

namespace StepNumber.Spelled

variable {n : StepNumber} (h : n.Spelled)
include h

theorem named : n.Named := ⟨⟨n.spelling, n, h.names, rfl⟩, n.spelling, n, h.names, rfl⟩

theorem part_names : Numeral n.part.toList ∧ partOf n.part = .ok n.part := by
  obtain ⟨ds, fs, hp⟩ := h.numeral.pointed_of_mem (by simp [spelling])
  obtain ⟨k, hk⟩ := (canonical_of_ofLiteral hp h.names).part
  refine ⟨?_, partOf_part h.names⟩
  rw [hk, spellNat, String.toList_ofList]
  exact .whole (digitsOf_ne_nil k) fun c hc => isDigit_ascii (ascii_digitsOf k c hc)

end StepNumber.Spelled

end JossLang
