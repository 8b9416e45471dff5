import JossLang.Proofs.Indices
import JossLang.Proofs.LoopControl

/-!
# Doubles as numbers

A finite double is a signed zero or a signed number `m * 2 ^ e` in canonical form: a mantissa of 53 bits, or of fewer at
the least exponent. Read so, doubles are ordered as the numbers that they are (`lt_iff`), and but for the sign of zero
each is known from its number (`eq_of_value_eq`).
-/

namespace JossLang.Double

open Float.Model (UnpackedFloat Format)
open Float.Model.UnpackedFloat

structure Canonical (m : ℕ) (e : ℤ) : Prop where
  pos : 0 < m
  small : m < 2 ^ 53
  least : -1074 ≤ e
  full : 2 ^ 52 ≤ m ∨ e = -1074

/-! ## Fields -/

abbrev Bits : Type := BitVec (Format.binary64).numBits

theorem exponentBias_eq : Format.binary64.exponentBias = 1023 := by decide

theorem finite_congr {s t : Sign} {m n : ℕ} {e f : ℤ} {hm : 0 < m} {hn : 0 < n} (hs : s = t) (h : m = n) (h' : e = f) :
    UnpackedFloat.finite s m e hm = .finite t n f hn := by
  subst hs h h'
  rfl

theorem toNat_append_one (w : BitVec 52) : (1#1 ++ w).toNat = w.toNat + 2 ^ 52 := by
  rw [BitVec.toNat_append, ← Nat.shiftLeft_add_eq_or_of_lt (BitVec.isLt _), Nat.add_comm]
  rfl

section
variable (b : Bits)

theorem unpack_zero (h : unpackExponent b = 0#11) (hw : unpackMantissa b = 0#52) :
    unpack Format.binary64 b = .zero (Sign.ofBitVec (unpackSign b)) := by
  unfold unpack
  dsimp only
  rw [h, if_neg (by decide), if_pos rfl, dif_pos hw]

theorem unpack_subnormal (h : unpackExponent b = 0#11) (hpos : 0 < (unpackMantissa b).toNat) :
    unpack Format.binary64 b = .finite (Sign.ofBitVec (unpackSign b)) (unpackMantissa b).toNat (-1074) hpos := by
  have hw : unpackMantissa b ≠ 0#52 := fun hw => by rw [hw] at hpos; exact absurd hpos (by decide)
  unfold unpack
  dsimp only
  rw [h, if_neg (by decide), if_pos rfl, dif_neg hw]
  exact finite_congr rfl rfl (by rw [exponentBias_eq]; rfl)

theorem unpack_normal (h : unpackExponent b ≠ 0#11) (hmax : unpackExponent b ≠ -1#11) :
    unpack Format.binary64 b = .finite (Sign.ofBitVec (unpackSign b)) ((unpackMantissa b).toNat + 2 ^ 52)
      ((unpackExponent b).toNat - 1075) (Nat.add_pos_right _ (by decide)) := by
  unfold unpack
  dsimp only
  rw [if_neg hmax, if_neg h]
  exact finite_congr rfl (toNat_append_one _) (by rw [exponentBias_eq]; omega)

end

section
variable (x : Float)

abbrev bits : Bits := x.toModel.toBits.toBitVec

theorem toNat_unpackSign : (unpackSign (bits x)).toNat = x.toBits.toNat / 2 ^ 63 % 2 := by
  rw [unpackSign_def, BitVec.extractLsb'_toNat, Nat.shiftRight_eq_div_pow]
  rfl

theorem toNat_unpackExponent : (unpackExponent (bits x)).toNat = exponentField x := by
  rw [unpackExponent_def, BitVec.extractLsb'_toNat, Nat.shiftRight_eq_div_pow]
  rfl

theorem toNat_unpackMantissa : (unpackMantissa (bits x)).toNat = fractionField x := by
  rw [unpackMantissa_def, BitVec.extractLsb'_toNat, Nat.shiftRight_eq_div_pow, pow_zero, Nat.div_one]
  rfl

def signOf : Sign := if isNegative x then .negative else .positive

theorem ofBitVec_unpackSign : Sign.ofBitVec (unpackSign (bits x)) = signOf x := by
  have hlt : x.toBits.toNat < 2 ^ 64 := x.toBits.toNat_lt
  have hsign := toNat_unpackSign x
  have hone : x.toBits.toNat / Nat.pow 2 63 = x.toBits.toNat / 2 ^ 63 := rfl
  rw [Sign.ofBitVec, signOf, isNegative, hone]
  rcases Nat.le_one_iff_eq_zero_or_eq_one.mp (show x.toBits.toNat / 2 ^ 63 ≤ 1 by omega) with h | h
  · rw [if_pos (BitVec.eq_of_toNat_eq (by rw [hsign, h]; rfl)), h]
    rfl
  · rw [if_neg (fun h0 => by rw [h0, h] at hsign; cases hsign), h]
    rfl

theorem isFinite_unpack_of_max {b : Bits} (h : unpackExponent b = -1#11) : (unpack Format.binary64 b).isFinite = false := by
  unfold unpack
  dsimp only
  rw [if_pos h]
  split <;> rfl

/-- A finite double is a signed zero, or a number in canonical form whose exponent is not too large. -/
theorem unpack_eq (h : x.isFinite = true) :
    (x.toModel.unpack = .zero (signOf x) ∧ (magnitude x).mantissa = 0) ∨
    ∃ m e hm, x.toModel.unpack = .finite (signOf x) m e hm ∧ magnitude x = ⟨m, e⟩ ∧ Canonical m e ∧ e ≤ 971 := by
  have hunpack : x.toModel.unpack = unpack Format.binary64 (bits x) := rfl
  have hfinite : (unpack Format.binary64 (bits x)).isFinite = true := h
  have hfraction : fractionField x < 2 ^ 52 := Nat.mod_lt _ (Nat.pow_pos (by decide))
  have hexponent : exponentField x < 2 ^ 11 := Nat.mod_lt _ (Nat.pow_pos (by decide))
  have he := toNat_unpackExponent x
  have hm := toNat_unpackMantissa x
  rw [hunpack, ← ofBitVec_unpackSign, magnitude, ← he, ← hm]
  rw [← he] at hexponent
  rw [← hm] at hfraction
  by_cases hzero : unpackExponent (bits x) = 0#11
  · rw [if_pos (by rw [hzero]; rfl)]
    rcases Nat.eq_zero_or_pos (unpackMantissa (bits x)).toNat with hw | hpos
    · exact .inl ⟨unpack_zero _ hzero (BitVec.eq_of_toNat_eq hw), hw⟩
    · exact .inr ⟨_, _, hpos, unpack_subnormal _ hzero hpos, rfl, ⟨hpos, by omega, le_rfl, .inr rfl⟩, by decide⟩
  · have hmax : unpackExponent (bits x) ≠ -1#11 := fun hmax => by rw [isFinite_unpack_of_max hmax] at hfinite; cases hfinite
    have hne : (unpackExponent (bits x)).toNat ≠ 0 := fun h0 => hzero (BitVec.eq_of_toNat_eq h0)
    have hne' : (unpackExponent (bits x)).toNat ≠ 2047 := fun h0 => hmax (BitVec.eq_of_toNat_eq h0)
    rw [if_neg hne]
    exact .inr ⟨_, _, _, unpack_normal _ hzero hmax, rfl, ⟨by omega, by omega, by omega, .inl (by omega)⟩, by omega⟩

end

/-! ## Values -/

def numberValue : UnpackedFloat → ℚ
  | .finite s m e _ => s.apply m * 2 ^ e
  | .zero _ | .infinity _ | .notANumber => 0

def IsNumber : UnpackedFloat → Prop
  | .finite _ m e _ => Canonical m e
  | .zero _ => True
  | .infinity _ | .notANumber => False

theorem value_eq {x : Float} (h : x.isFinite = true) : value x = numberValue x.toModel.unpack := by
  rcases unpack_eq x h with ⟨hu, hm⟩ | ⟨m, e, hm, hu, hmagnitude, -⟩
  · rw [hu, value, hm, numberValue, Nat.cast_zero, zero_mul, mul_zero]
  · rw [hu, value, hmagnitude, numberValue, signOf]
    split <;> simp [Sign.apply]

theorem isNumber_unpack {x : Float} (h : x.isFinite = true) : IsNumber x.toModel.unpack := by
  rcases unpack_eq x h with ⟨hu, -⟩ | ⟨m, e, hm, hu, -, hc, -⟩
  · rw [hu]
    trivial
  · rw [hu]
    exact hc

theorem numberValue_zero (s : Sign) : numberValue (.zero s) = 0 := rfl

theorem numberValue_positive {m : ℕ} {e : ℤ} (hm : 0 < m) : numberValue (.finite .positive m e hm) = m * 2 ^ e := by
  simp [numberValue, Sign.apply]

theorem numberValue_negative {m : ℕ} {e : ℤ} (hm : 0 < m) : numberValue (.finite .negative m e hm) = -(m * 2 ^ e) := by
  simp [numberValue, Sign.apply]

theorem Canonical.value_pos {m : ℕ} {e : ℤ} (h : Canonical m e) : (0 : ℚ) < m * 2 ^ e := by
  have : (0 : ℚ) < m := by exact_mod_cast h.pos
  positivity

theorem Canonical.value_lt {m : ℕ} {e : ℤ} (h : Canonical m e) {f : ℤ} (hf : e ≤ f) : (m * 2 ^ e : ℚ) < 2 ^ (f + 53) := by
  have hm : (m : ℚ) < 2 ^ (53 : ℤ) := by exact_mod_cast h.small
  calc (m * 2 ^ e : ℚ) < 2 ^ (53 : ℤ) * 2 ^ e := by gcongr
    _ = 2 ^ (e + 53) := by rw [← zpow_add₀ (by norm_num), add_comm]
    _ ≤ 2 ^ (f + 53) := zpow_le_zpow_right₀ (by norm_num) (by omega)

theorem Canonical.le_value {m : ℕ} {e : ℤ} (h : Canonical m e) {f : ℤ} (hf : f ≤ e) (hleast : -1074 < e) :
    (2 ^ (f + 52) : ℚ) ≤ m * 2 ^ e := by
  have hm : (2 ^ (52 : ℤ) : ℚ) ≤ m := by exact_mod_cast h.full.resolve_right hleast.ne'
  calc (2 ^ (f + 52) : ℚ) ≤ 2 ^ (e + 52) := zpow_le_zpow_right₀ (by norm_num) (by omega)
    _ = 2 ^ (52 : ℤ) * 2 ^ e := by rw [← zpow_add₀ (by norm_num), add_comm]
    _ ≤ m * 2 ^ e := by gcongr

theorem abs_value_lt {x : Float} (h : x.isFinite = true) : |value x| < 2 ^ (1024 : ℤ) := by
  rw [value_eq h]
  rcases unpack_eq x h with ⟨hu, -⟩ | ⟨m, e, hm, hu, -, hc, he⟩
  · rw [hu, numberValue_zero, abs_zero]
    positivity
  · have hlt := hc.value_lt he
    rw [hu]
    cases signOf x with
    | positive => rwa [numberValue_positive, abs_of_pos hc.value_pos]
    | negative => rwa [numberValue_negative, abs_neg, abs_of_pos hc.value_pos]

/-! ## Order -/

section
variable {m n : ℕ} {e f : ℤ} (hm : Canonical m e) (hn : Canonical n f)
include hm hn

theorem Canonical.lt_of_lt (hlt : e < f) : (m * 2 ^ e : ℚ) < n * 2 ^ f := by
  have hleast : -1074 < f := lt_of_le_of_lt hm.least hlt
  calc (m * 2 ^ e : ℚ) < 2 ^ (e + 53) := hm.value_lt le_rfl
    _ = 2 ^ (e + 1 + 52) := by congr 1; ring
    _ ≤ n * 2 ^ f := hn.le_value hlt hleast

theorem Canonical.compare_eq : (compare e f).then (compare m n) = compare (m * 2 ^ e : ℚ) (n * 2 ^ f) := by
  rcases lt_trichotomy e f with hlt | rfl | hlt
  · rw [compare_lt_iff_lt.mpr hlt, compare_lt_iff_lt.mpr (hm.lt_of_lt hn hlt)]
    rfl
  · have hpos : (0 : ℚ) < 2 ^ e := by positivity
    rw [compare_eq_iff_eq.mpr rfl, Ordering.eq_then]
    rcases lt_trichotomy m n with hlt | rfl | hlt
    · rw [compare_lt_iff_lt.mpr hlt, compare_lt_iff_lt.mpr (by gcongr)]
    · rw [compare_eq_iff_eq.mpr rfl, compare_eq_iff_eq.mpr rfl]
    · rw [compare_gt_iff_gt.mpr hlt, compare_gt_iff_gt.mpr (by gcongr)]
  · rw [compare_gt_iff_gt.mpr hlt, compare_gt_iff_gt.mpr (hn.lt_of_lt hm hlt)]
    rfl

end

theorem compare_neg_neg (p q : ℚ) : compare (-p) (-q) = (compare p q).swap := by
  rcases lt_trichotomy p q with h | rfl | h
  · rw [compare_lt_iff_lt.mpr h, compare_gt_iff_gt.mpr (neg_lt_neg h)]
    rfl
  · rw [compare_eq_iff_eq.mpr rfl, compare_eq_iff_eq.mpr rfl]
    rfl
  · rw [compare_gt_iff_gt.mpr h, compare_lt_iff_lt.mpr (neg_lt_neg h)]
    rfl

theorem compare_eq {a b : UnpackedFloat} (ha : IsNumber a) (hb : IsNumber b) :
    a.compare b = some (compare (numberValue a) (numberValue b)) := by
  cases a with
  | infinity | notANumber => exact ha.elim
  | zero s =>
    cases b with
    | infinity | notANumber => exact hb.elim
    | zero t => rw [numberValue_zero, numberValue_zero, compare_eq_iff_eq.mpr rfl]; rfl
    | finite t n f hn =>
      have hpos := Canonical.value_pos hb
      cases t with
      | positive => rw [numberValue_zero, numberValue_positive, compare_lt_iff_lt.mpr hpos]; rfl
      | negative => rw [numberValue_zero, numberValue_negative, compare_gt_iff_gt.mpr (neg_lt_zero.mpr hpos)]; rfl
  | finite s m e hm =>
    have hpos := Canonical.value_pos ha
    cases b with
    | infinity | notANumber => exact hb.elim
    | zero t =>
      cases s with
      | positive => rw [numberValue_zero, numberValue_positive, compare_gt_iff_gt.mpr hpos]; rfl
      | negative => rw [numberValue_zero, numberValue_negative, compare_lt_iff_lt.mpr (neg_lt_zero.mpr hpos)]; rfl
    | finite t n f hn =>
      have hpos' := Canonical.value_pos hb
      have hcompare := Canonical.compare_eq ha hb
      cases s <;> cases t
      · rw [numberValue_negative, numberValue_negative, compare_neg_neg, ← hcompare]
        rfl
      · rw [numberValue_negative, numberValue_positive, compare_lt_iff_lt.mpr (by linarith)]
        rfl
      · rw [numberValue_negative, numberValue_positive, compare_gt_iff_gt.mpr (by linarith)]
        rfl
      · rw [numberValue_positive, numberValue_positive, ← hcompare]
        rfl

theorem lt_iff_compare (x y : Float) : x < y ↔ x.toModel.unpack.compare y.toModel.unpack = some .lt := by
  have hlt : x < y ↔ decide ((x.toModel.unpack.compare y.toModel.unpack == some .lt) = true) = true := Iff.rfl
  rw [hlt, decide_eq_true_iff, beq_iff_eq]

section
variable {x y : Float} (hx : x.isFinite = true) (hy : y.isFinite = true)
include hx hy

theorem lt_iff : x < y ↔ value x < value y := by
  rw [lt_iff_compare, compare_eq (isNumber_unpack hx) (isNumber_unpack hy), value_eq hx, value_eq hy,
    Option.some.injEq, compare_lt_iff_lt]

/-- But for the sign of zero, a double is known from its value. -/
theorem eq_of_value_eq (h : value x = value y) (h0 : value x ≠ 0) : x = y := by
  have hbeq : (x == y) = true := by
    show (x.toModel.unpack.compare y.toModel.unpack == some .eq) = true
    rw [compare_eq (isNumber_unpack hx) (isNumber_unpack hy), ← value_eq hx, ← value_eq hy, h,
      compare_eq_iff_eq.mpr rfl]
    rfl
  have hnonzero : ∀ a, numberValue a ≠ 0 → unsignedZero a = a := by
    intro a ha
    cases a with
    | zero => exact absurd rfl ha
    | _ => rfl
  have hnumbers : unsignedZero x.toModel.unpack = unsignedZero y.toModel.unpack := ((beq_iff_numberOf x y).mp hbeq).2
  rw [value_eq hx] at h h0
  rw [value_eq hy] at h
  rw [hnonzero _ h0, hnonzero _ (h ▸ h0)] at hnumbers
  exact Float.toBits_inj.mp
    (UInt64.toBitVec_inj.mp ((unpack_inj_of_valid x.toModel.valid y.toModel.valid).mp hnumbers))

end

/-! ## Packing -/

theorem unpack_pack_infinity (s : Sign) : (Float.Model.pack (.infinity s)).unpack = .infinity s := by
  show unpack Format.binary64 (packedInfinity Format.binary64 s) = _
  simp [unpack, packedInfinity]

theorem unpack_pack_zero (s : Sign) : (Float.Model.pack (.zero s)).unpack = .zero s := unpack_packedZero

theorem unpack_pack_finite {s : Sign} {m : ℕ} {e : ℤ} (hm : 0 < m) (hc : Canonical m e) :
    (Float.Model.pack (.finite s m e hm)).unpack = if e ≤ 971 then .finite s m e hm else .infinity s := by
  obtain ⟨-, hsmall, hleast, hfull⟩ := hc
  have hunpack : ∀ a, (Float.Model.pack a).unpack = unpack Format.binary64 (pack Format.binary64 a) := fun _ => rfl
  have hbias : e + Format.binary64.exponentBias + Format.binary64.mantissaBitsWithoutImplicit = e + 1075 := by
    rw [exponentBias_eq]
    exact add_assoc e 1023 52
  obtain ⟨k, hk⟩ := Int.eq_ofNat_of_zero_le (show 0 ≤ e + 1075 by omega)
  rw [hunpack, pack, hbias, hk, Int.toNat_natCast]
  dsimp only
  by_cases he : e ≤ 971
  · have hexponent : (BitVec.ofNat 11 k).toNat = k := Nat.mod_eq_of_lt (by omega)
    rw [if_pos he, if_neg (by show ¬ 2 ^ 11 ≤ k + 1; omega)]
    by_cases hnormal : 2 ^ 52 ≤ m
    · -- a normal number: the leading bit is not stored, and the exponent's field is none of the two special ones
      have hlog : m.log2 = 52 := (Nat.log2_eq_iff (by omega)).mpr ⟨hnormal, hsmall⟩
      have hmantissa : (BitVec.ofNat 52 m).toNat = m - 2 ^ 52 := by
        rw [BitVec.toNat_ofNat]
        omega
      have hfield : ∀ v : BitVec 11, v.toNat ≠ k → BitVec.ofNat 11 k ≠ v := fun v hv h => hv (h ▸ hexponent)
      rw [if_pos (by rw [hlog]; rfl), unpack_normal]
      · refine finite_congr ?_ ?_ ?_
        · rw [unpackSign_packComponents, Sign.ofBitVec_toBitVec]
        · rw [unpackMantissa_packComponents, hmantissa]
          omega
        · rw [unpackExponent_packComponents, hexponent]
          omega
      · rw [unpackExponent_packComponents]
        exact hfield _ (by show 0 ≠ k; omega)
      · rw [unpackExponent_packComponents]
        exact hfield _ (by show 2047 ≠ k; omega)
    · -- a subnormal number: the field of its exponent is zero
      have hlog : m.log2 < 52 := (Nat.log2_lt (by omega)).mpr (by omega)
      have hmantissa : (BitVec.ofNat 52 m).toNat = m := Nat.mod_eq_of_lt (by omega)
      rw [if_neg (by show ¬ m.log2 + 1 = 53; omega), unpack_subnormal]
      · refine finite_congr ?_ ?_ (hfull.resolve_left hnormal).symm
        · rw [unpackSign_packComponents, Sign.ofBitVec_toBitVec]
        · rw [unpackMantissa_packComponents, hmantissa]
      · exact unpackExponent_packComponents
      · rw [unpackMantissa_packComponents, hmantissa]
        exact hm
  · rw [if_neg he, if_pos (by show 2 ^ 11 ≤ k + 1; omega)]
    exact unpack_pack_infinity s

end JossLang.Double
