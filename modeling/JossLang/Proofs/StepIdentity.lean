import JossLang.Proofs.ProgramHistory

/-!
# One step for each number

Step numbers keep 28 significant digits and 1000026 places. Literals of numbers
within these bounds name one step exactly if they denote one number, and the
bounds are sharp: `exact_iff`.
-/

namespace JossLang

open SignedDecimal (Kept kept_rounded rounded_of_kept)

def SameStep (a b : String) : Prop := ∃ n, StepNumber.ofLiteral a = .ok n ∧ StepNumber.ofLiteral b = .ok n

/-- Whole numbers, and numbers whose digits are all kept and few enough to be read. -/
def IsExact (cs : List Char) : Prop :=
  IsWhole (numeralValue cs) ∨ (Kept (numeralValue cs) ∧ (Double.splitPoint cs).2.length ≤ 1999999999999999997)

/-! ## Literals that can be read -/

theorem lt_of_kept {v : ℚ} (h : Kept v) (hw : ¬ IsWhole v) : v < 10 ^ significantDigits := by
  obtain ⟨c, p, hc, -, rfl⟩ := h
  have hp : p < 0 := by
    by_contra hp
    obtain ⟨k, rfl⟩ := Int.eq_ofNat_of_zero_le (not_lt.mp hp)
    exact hw ⟨c * 10 ^ k, by push_cast; rfl⟩
  have hc' : (c : ℚ) < 10 ^ significantDigits := by exact_mod_cast hc
  calc (c : ℚ) * 10 ^ p ≤ c * 10 ^ (0 : Int) :=
        mul_le_mul_of_nonneg_left (zpow_le_zpow_right₀ (by norm_num) hp.le) (by positivity)
    _ = c := by rw [zpow_zero, mul_one]
    _ < 10 ^ significantDigits := hc'

namespace Pointed

variable {cs ds fs : List Char} (h : Pointed cs ds fs)
include h

theorem coefficient_eq : (digitsValue (ds ++ fs) : ℚ) = numeralValue cs * 10 ^ fs.length := by
  rw [h.numeralValue_eq, digitsValue_append, fractionValue]
  push_cast
  field_simp

/-- Too many places are the one reason why a kept number cannot be read. -/
theorem possible_iff (hk : Kept (numeralValue cs)) (hw : ¬ IsWhole (numeralValue cs)) :
    IsPossible ds fs ↔ fs.length ≤ 1999999999999999997 := by
  have hlt : digitsValue (ds ++ fs) < 10 ^ (significantDigits + fs.length) := by
    have := mul_lt_mul_of_pos_right (lt_of_kept hk hw) (show (0 : ℚ) < 10 ^ fs.length by positivity)
    rw [← h.coefficient_eq, ← pow_add] at this
    exact_mod_cast this
  have hlen : (digitsOf (digitsValue (ds ++ fs))).length ≤ significantDigits + fs.length :=
    (Nat.length_toDigits_le_iff (by decide) (by simp [significantDigits])).mpr hlt
  unfold significantDigits at hlen
  unfold IsPossible isPossiblePower
  rw [decide_eq_true_eq]
  omega

end Pointed

namespace StepNumber

section
variable {s : String} {ds fs : List Char} (h : Pointed s.toList ds fs)
include h

theorem namedValue_of_kept (hk : Kept (numeralValue s.toList)) : namedValue ds fs = numeralValue s.toList := by
  rw [h.numeralValue_eq, ← magnitude_decimalOf] at *
  exact rounded_of_kept hk

theorem ofLiteral_of_whole (hw : IsWhole (numeralValue s.toList)) : ∃ e, ofLiteral s = .error e := by
  by_cases hp : IsPossible ds fs
  · rw [h.numeralValue_eq, ← magnitude_decimalOf] at hw
    exact (ofLiteral_eq_error_iff h hp).mpr (SignedDecimal.isWhole_rounded hw)
  · exact ⟨_, ofLiteral_of_not_possible h hp⟩

theorem ofLiteral_of_kept (hk : Kept (numeralValue s.toList)) (hl : fs.length ≤ 1999999999999999997)
    (hw : ¬ IsWhole (numeralValue s.toList)) {n : StepNumber} :
    ofLiteral s = .ok n ↔ n.Canonical ∧ n.value = numeralValue s.toList := by
  rw [ofLiteral_eq_ok_iff h ((h.possible_iff hk hw).mpr hl), namedValue_of_kept h hk]

theorem exists_ofLiteral_of_kept (hk : Kept (numeralValue s.toList)) (hl : fs.length ≤ 1999999999999999997)
    (hw : ¬ IsWhole (numeralValue s.toList)) : ∃ n, ofLiteral s = .ok n := by
  have hp := (h.possible_iff hk hw).mpr hl
  cases hr : ofLiteral s with
  | ok n => exact ⟨n, rfl⟩
  | error e =>
    have := (ofLiteral_eq_error_iff h hp).mp ⟨e, hr⟩
    rw [namedValue_of_kept h hk] at this
    exact absurd this hw

end

/-! ## Spellings -/

theorem Canonical.pointed {n : StepNumber} (h : n.Canonical) : Pointed n.spelling.toList n.part.toList n.step.toList := by
  obtain ⟨k, hk⟩ := h.part
  refine ⟨by simp [spelling], fun c hc => ?_, h.ne_nil, fun c hc => isDigit_ascii (h.ascii c hc)⟩
  rw [hk, spellNat, String.toList_ofList] at hc
  exact isDigit_ascii (ascii_digitsOf k c hc)

theorem Canonical.numeralValue_spelling {n : StepNumber} (h : n.Canonical) :
    numeralValue n.spelling.toList = n.value := h.pointed.numeralValue_eq

section
variable {s : String} {ds fs : List Char} (h : Pointed s.toList ds fs) {n : StepNumber} (hn : ofLiteral s = .ok n)
include h hn

theorem possible_of_ofLiteral : IsPossible ds fs := by
  by_contra hp
  rw [ofLiteral_of_not_possible h hp] at hn
  cases hn

theorem canonical_of_ofLiteral : n.Canonical :=
  ((ofLiteral_eq_ok_iff h (possible_of_ofLiteral h hn)).mp hn).1

theorem kept_of_ofLiteral : Kept n.value := by
  rw [((ofLiteral_eq_ok_iff h (possible_of_ofLiteral h hn)).mp hn).2]
  exact kept_rounded _

theorem exact_spelling : IsExact n.spelling.toList := by
  have hc := canonical_of_ofLiteral h hn
  have hl := IsStepName.length_le ⟨s, n, hn, rfl⟩
  refine .inr ⟨hc.numeralValue_spelling ▸ kept_of_ofLiteral h hn, ?_⟩
  rw [hc.pointed.splitPoint_eq]
  exact hl.trans (by decide)

theorem ofLiteral_spelling : ofLiteral n.spelling = .ok n := by
  have hc := canonical_of_ofLiteral h hn
  have hv := hc.numeralValue_spelling
  have hl := IsStepName.length_le ⟨s, n, hn, rfl⟩
  exact (ofLiteral_of_kept hc.pointed (hv ▸ kept_of_ofLiteral h hn) (hl.trans (by decide)) (hv ▸ hc.not_whole)).mpr
    ⟨hc, hv.symm⟩

end

/-! ## Exact literals -/

section
variable {s : String} {ds fs : List Char} (h : Pointed s.toList ds fs) (he : IsExact s.toList)
include h he

theorem ofLiteral_of_exact {n : StepNumber} : ofLiteral s = .ok n ↔ n.Canonical ∧ n.value = numeralValue s.toList := by
  by_cases hw : IsWhole (numeralValue s.toList)
  · obtain ⟨e, he⟩ := ofLiteral_of_whole h hw
    refine ⟨fun hn => absurd (he.symm.trans hn) (by simp), fun ⟨hc, hv⟩ => ?_⟩
    exact absurd (hv ▸ hw) hc.not_whole
  · obtain ⟨hk, hl⟩ := he.resolve_left hw
    rw [h.splitPoint_eq] at hl
    exact ofLiteral_of_kept h hk hl hw

theorem rejected_of_exact : (∃ e, ofLiteral s = .error e) ↔ IsWhole (numeralValue s.toList) := by
  refine ⟨fun ⟨e, hr⟩ => ?_, ofLiteral_of_whole h⟩
  by_contra hw
  obtain ⟨hk, hl⟩ := he.resolve_left hw
  rw [h.splitPoint_eq] at hl
  obtain ⟨n, hn⟩ := exists_ofLiteral_of_kept h hk hl hw
  exact absurd (hr.symm.trans hn) (by simp)

end

end StepNumber

section
variable {a b : String} (ha : Numeral a.toList) (hap : '.' ∈ a.toList)
include ha hap

theorem sameStep_of_exact (hae : IsExact a.toList) (hb : Numeral b.toList) (hbp : '.' ∈ b.toList)
    (hbe : IsExact b.toList) :
    SameStep a b ↔ numeralValue a.toList = numeralValue b.toList ∧ ¬ IsWhole (numeralValue a.toList) := by
  obtain ⟨ds, fs, hA⟩ := ha.pointed_of_mem hap
  obtain ⟨es, gs, hB⟩ := hb.pointed_of_mem hbp
  constructor
  · rintro ⟨n, hna, hnb⟩
    obtain ⟨hc, hva⟩ := (StepNumber.ofLiteral_of_exact hA hae).mp hna
    obtain ⟨-, hvb⟩ := (StepNumber.ofLiteral_of_exact hB hbe).mp hnb
    exact ⟨hva.symm.trans hvb, hva ▸ hc.not_whole⟩
  · rintro ⟨hv, hw⟩
    cases hr : StepNumber.ofLiteral a with
    | error e => exact absurd ((StepNumber.rejected_of_exact hA hae).mp ⟨e, hr⟩) hw
    | ok n =>
      obtain ⟨hc, hva⟩ := (StepNumber.ofLiteral_of_exact hA hae).mp hr
      exact ⟨n, hr, (StepNumber.ofLiteral_of_exact hB hbe).mpr ⟨hc, hva.trans hv⟩⟩

theorem exact_of_sameStep (hr : (∃ e, StepNumber.ofLiteral a = .error e) → IsWhole (numeralValue a.toList))
    (hs : ∀ b : String, Numeral b.toList → '.' ∈ b.toList → IsExact b.toList → SameStep a b →
      numeralValue a.toList = numeralValue b.toList) : IsExact a.toList := by
  obtain ⟨ds, fs, hA⟩ := ha.pointed_of_mem hap
  cases hn : StepNumber.ofLiteral a with
  | error e => exact .inl (hr ⟨e, hn⟩)
  | ok n =>
    have hp := (StepNumber.canonical_of_ofLiteral hA hn).pointed
    have hv := hs n.spelling hp.numeral hp.mem_point
      (StepNumber.exact_spelling hA hn) ⟨n, hn, StepNumber.ofLiteral_spelling hA hn⟩
    refine .inr ⟨?_, ?_⟩
    · rw [hv, (StepNumber.canonical_of_ofLiteral hA hn).numeralValue_spelling]
      exact StepNumber.kept_of_ofLiteral hA hn
    · have hposs := StepNumber.possible_of_ofLiteral hA hn
      unfold IsPossible isPossiblePower at hposs
      rw [hA.splitPoint_eq]
      exact Nat.cast_le.mp (Int.neg_le_neg_iff.mp (of_decide_eq_true hposs).2)

end

/-! ## Storing under literals -/

namespace Program

def storeLiterals (rs : List (String × Command)) : Program :=
  rs.foldl (fun p r => match StepNumber.ofLiteral r.1 with
    | .ok n => p.store n r.2
    | .error _ => p) {}

def lastOf? (rs : List (String × Command)) (v : ℚ) : Option Command :=
  (rs.reverse.find? fun r => numeralValue r.1.toList = v).map (·.2)

theorem storeLiterals_append (rs : List (String × Command)) (r : String × Command) :
    storeLiterals (rs ++ [r]) = match StepNumber.ofLiteral r.1 with
      | .ok n => (storeLiterals rs).store n r.2
      | .error _ => storeLiterals rs := by
  simp [storeLiterals]

theorem lastOf?_append (rs : List (String × Command)) (r : String × Command) (v : ℚ) :
    lastOf? (rs ++ [r]) v = if numeralValue r.1.toList = v then some r.2 else lastOf? rs v := by
  rw [lastOf?, List.reverse_append, List.reverse_singleton, List.singleton_append, List.find?_cons]
  by_cases h : numeralValue r.1.toList = v
  · simp [h]
  · simp [h, lastOf?]

theorem ordered_storeLiterals (rs : List (String × Command)) : (storeLiterals rs).Ordered := by
  induction rs using List.reverseRecOn with
  | nil => exact ordered_empty
  | append_singleton rs r ih =>
    rw [storeLiterals_append]
    cases hr : StepNumber.ofLiteral r.1 with
    | error e => exact ih
    | ok n => exact ih.store r.2 (StepNumber.named_of_ofLiteral hr)

theorem holds_storeLiterals {rs : List (String × Command)}
    (h : ∀ r ∈ rs, Numeral r.1.toList ∧ '.' ∈ r.1.toList ∧ IsExact r.1.toList) {s : Step} (hc : s.number.Canonical) :
    (storeLiterals rs).Holds s ↔ lastOf? rs s.number.value = some s.command := by
  induction rs using List.reverseRecOn with
  | nil => simp [storeLiterals, Holds, lastOf?]
  | append_singleton rs r ih =>
    have ih := ih fun q hq => h q (List.mem_append_left _ hq)
    obtain ⟨hnum, hp, he⟩ := h r (by simp)
    obtain ⟨ds, fs, hR⟩ := hnum.pointed_of_mem hp
    have hread := @StepNumber.ofLiteral_of_exact _ _ _ hR he
    rw [storeLiterals_append, lastOf?_append]
    cases hr : StepNumber.ofLiteral r.1 with
    | error e =>
      have hne : numeralValue r.1.toList ≠ s.number.value := fun hv => by
        have := hread.mpr ⟨hc, hv.symm⟩
        rw [hr] at this
        cases this
      rw [if_neg hne]
      exact ih
    | ok n =>
      obtain ⟨hnc, hnv⟩ := hread.mp hr
      dsimp only
      rw [(ordered_storeLiterals rs).holds_store r.2 (StepNumber.named_of_ofLiteral hr), ih, ← hnv]
      by_cases hs : n.value = s.number.value
      · have hn : n = s.number := hnc.eq_of_value hc hs
        obtain ⟨m, c⟩ := s
        simp_all [eq_comm]
      · have hn : s.number ≠ n := fun hn => hs (hn ▸ rfl)
        obtain ⟨m, c⟩ := s
        simp_all

theorem command_of_exact {rs : List (String × Command)}
    (h : ∀ r ∈ rs, Numeral r.1.toList ∧ '.' ∈ r.1.toList ∧ IsExact r.1.toList) {b : String} (hb : Numeral b.toList)
    (hbp : '.' ∈ b.toList) (hbe : IsExact b.toList) (hw : ¬ IsWhole (numeralValue b.toList)) :
    ∃ n, StepNumber.ofLiteral b = .ok n ∧
      ((storeLiterals rs).step? n).map (·.command) = lastOf? rs (numeralValue b.toList) := by
  obtain ⟨es, gs, hB⟩ := hb.pointed_of_mem hbp
  cases hr : StepNumber.ofLiteral b with
  | error e => exact absurd ((StepNumber.rejected_of_exact hB hbe).mp ⟨e, hr⟩) hw
  | ok n =>
    obtain ⟨hc, hv⟩ := (StepNumber.ofLiteral_of_exact hB hbe).mp hr
    have hord := ordered_storeLiterals rs
    refine ⟨n, rfl, Option.ext fun c => ?_⟩
    rw [← hv, Option.map_eq_some_iff]
    constructor
    · rintro ⟨s, hs, rfl⟩
      obtain ⟨hholds, hspell⟩ := hord.step?_eq_some_iff.mp hs
      have hn : s.number = n := (hord.named s hholds).eq_of_spelling (StepNumber.named_of_ofLiteral hr) hspell
      exact hn ▸ (holds_storeLiterals h (hn ▸ hc)).mp hholds
    · intro hl
      have hs : (storeLiterals rs).Holds ⟨n, c⟩ := (holds_storeLiterals h hc).mpr hl
      exact ⟨⟨n, c⟩, hord.step?_eq_some_iff.mpr ⟨hs, rfl⟩, rfl⟩

end Program

/-- **Identity of steps.** A literal is refused exactly if its number is whole, and shares its step with the literals
of its own number only, if and only if its digits are all kept. Under such literals, each number has a command of
its own. -/
theorem exact_iff {a : String} (ha : Numeral a.toList) (hp : '.' ∈ a.toList) :
    ((((∃ e, StepNumber.ofLiteral a = .error e) ↔ IsWhole (numeralValue a.toList)) ∧
        ∀ b : String, Numeral b.toList → '.' ∈ b.toList → IsExact b.toList →
          (SameStep a b ↔ numeralValue a.toList = numeralValue b.toList ∧ ¬ IsWhole (numeralValue a.toList))) ↔
      IsExact a.toList) ∧
    ∀ rs : List (String × Command), (∀ r ∈ rs, Numeral r.1.toList ∧ '.' ∈ r.1.toList ∧ IsExact r.1.toList) →
      IsExact a.toList → ¬ IsWhole (numeralValue a.toList) →
        ∃ n, StepNumber.ofLiteral a = .ok n ∧
          ((Program.storeLiterals rs).step? n).map (·.command) = Program.lastOf? rs (numeralValue a.toList) := by
  refine ⟨⟨fun ⟨hr, hs⟩ => ?_, fun he => ⟨?_, ?_⟩⟩, fun rs hrs he hw => ?_⟩
  · exact exact_of_sameStep ha hp hr.mp fun b hb hbp hbe hab => ((hs b hb hbp hbe).mp hab).1
  · obtain ⟨ds, fs, hA⟩ := ha.pointed_of_mem hp
    exact StepNumber.rejected_of_exact hA he
  · exact fun b hb hbp hbe => sameStep_of_exact ha hp he hb hbp hbe
  · exact Program.command_of_exact hrs ha hp he hw

/-- The literal 1.10 names one step with 1.1, and with no other exact number. -/
theorem exact_trailing_zero :
    Numeral "1.10".toList ∧ '.' ∈ "1.10".toList ∧ IsExact "1.10".toList ∧ SameStep "1.10" "1.1" ∧
      ∀ b : String, Numeral b.toList → '.' ∈ b.toList → IsExact b.toList →
        SameStep "1.10" b → numeralValue "1.10".toList = numeralValue b.toList := by
  have hp : Pointed "1.10".toList ['1'] ['1', '0'] :=
    ⟨by decide, List.all_eq_true.mp (by decide), by decide, List.all_eq_true.mp (by decide)⟩
  have he : IsExact "1.10".toList := .inr ⟨⟨11, -1, by decide, by decide, by decide +kernel⟩, by decide⟩
  obtain ⟨-, hs⟩ := (exact_iff hp.numeral hp.mem_point).1.mpr he
  exact ⟨hp.numeral, hp.mem_point, he, ⟨⟨"1", "1"⟩, by decide, by decide⟩,
    fun b hb hbp hbe hab => ((hs b hb hbp hbe).mp hab).1⟩

/-- A digit behind the 28th is lost, so that two numbers have one step. -/
theorem digits_lost :
    ¬ ∀ a b : String, Numeral a.toList → '.' ∈ a.toList → Numeral b.toList → '.' ∈ b.toList →
      (SameStep a b ↔ numeralValue a.toList = numeralValue b.toList ∧ ¬ IsWhole (numeralValue a.toList)) ∧
        ((∃ e, StepNumber.ofLiteral a = .error e) ↔ IsWhole (numeralValue a.toList)) := by
  intro h
  have ha : Pointed "0.12345678901234567890123456784".toList ['0'] "12345678901234567890123456784".toList :=
    ⟨by decide, List.all_eq_true.mp (by decide), by decide, List.all_eq_true.mp (by decide)⟩
  have hb : Pointed "0.1234567890123456789012345678".toList ['0'] "1234567890123456789012345678".toList :=
    ⟨by decide, List.all_eq_true.mp (by decide), by decide, List.all_eq_true.mp (by decide)⟩
  have hs := (h _ _ ha.numeral ha.mem_point hb.numeral hb.mem_point).1.mp
    ⟨⟨"0", "1234567890123456789012345678"⟩, by decide +kernel, by decide +kernel⟩
  exact absurd hs.1 (by decide +kernel)

end JossLang
