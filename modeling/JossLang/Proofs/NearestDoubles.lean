import JossLang.Double.Shortest
import JossLang.Proofs.Doubles

/-!
# The double nearest to a fraction

The numbers that round to a double are those between the middles to its neighbours, and the middles too if its mantissa is
even. Every fraction of such a number is taken to this double: `nearest_eq`.
-/

namespace JossLang

/-- A quotient is rounded to the whole number that is at most a half away, and even where it is a half. -/
theorem roundHalfEven_eq {n d m : ℕ} (hlow : 2 * (m * d) ≤ 2 * n + d) (hhigh : 2 * n ≤ 2 * (m * d) + d)
    (hodd : m % 2 = 1 → 2 * (m * d) < 2 * n + d ∧ 2 * n < 2 * (m * d) + d) (hd : 0 < d) : roundHalfEven n d = m := by
  have hn : n / d * d + n % d = n := Nat.div_add_mod' n d
  have hr : n % d < d := Nat.mod_lt n hd
  unfold roundHalfEven
  dsimp only
  generalize n / d = q at *
  generalize n % d = r at *
  have hle : q ≤ m := by
    by_contra hlt
    have := Nat.mul_le_mul_right d (show m + 1 ≤ q by omega)
    rw [Nat.succ_mul] at this
    omega
  have hge : m ≤ q + 1 := by
    by_contra hlt
    have := Nat.mul_le_mul_right d (show q + 2 ≤ m by omega)
    rw [Nat.add_mul] at this
    omega
  obtain rfl | rfl : m = q ∨ m = q + 1 := by omega
  · split_ifs <;> omega
  · rw [Nat.add_one_mul q d] at hlow hhigh hodd
    split_ifs <;> omega

namespace Double

open Float.Model (UnpackedFloat Format)
open Float.Model.UnpackedFloat

/-! ## Places -/

theorem pow_log2_le {n : ℕ} (h : 0 < n) : (2 ^ (n.log2 : ℤ) : ℚ) ≤ n := by
  rw [zpow_natCast]
  exact_mod_cast Nat.log2_self_le h.ne'

theorem lt_pow_log2 (n : ℕ) : (n : ℚ) < 2 ^ (n.log2 + 1 : ℤ) := by
  have h : n < 2 ^ (n.log2 + 1) := Nat.lt_log2_self
  exact_mod_cast h

theorem lt_mul_zpow_iff (num : ℕ) {den : ℕ} (hd : 0 < den) (g : ℤ) : (if g ≥ 0 then num < den * Nat.pow 2 (52 + g.toNat)
    else num * Nat.pow 2 (-g).toNat < den * Nat.pow 2 52) ↔ (num / den : ℚ) < 2 ^ (g + 52) := by
  have hd' : (0 : ℚ) < den := by exact_mod_cast hd
  rw [div_lt_iff₀ hd']
  by_cases hg : g ≥ 0
  · obtain ⟨n, rfl⟩ := Int.eq_ofNat_of_zero_le hg
    rw [if_pos hg, Int.toNat_natCast, show ((n : ℤ) + 52) = ((52 + n : ℕ) : ℤ) by omega, zpow_natCast, mul_comm]
    simp only [Nat.pow_eq]
    exact_mod_cast Iff.rfl
  · obtain ⟨n, hn⟩ := Int.eq_ofNat_of_zero_le (show 0 ≤ -g by omega)
    have hpos : (0 : ℚ) < 2 ^ n := by positivity
    rw [if_neg hg, hn, Int.toNat_natCast, show g + 52 = (52 : ℕ) - (n : ℕ) by omega, zpow_sub₀ (by norm_num), zpow_natCast,
      zpow_natCast, div_mul_eq_mul_div, lt_div_iff₀ hpos, mul_comm ((2 : ℚ) ^ 52)]
    simp only [Nat.pow_eq]
    exact_mod_cast Iff.rfl

/-- The last place of a number has 52 binary places before it, unless it is the least place. -/
theorem placeExponent_eq {num den : ℕ} (hn : 0 < num) (hd : 0 < den) : ∃ p : ℤ, placeExponent num den = max p (-1074) ∧
    2 ^ (p + 52) ≤ (num / den : ℚ) ∧ (num / den : ℚ) < 2 ^ (p + 53) := by
  have hd' : (0 : ℚ) < den := by exact_mod_cast hd
  let g : ℤ := num.log2 - den.log2 - 52
  have hlow : (2 ^ (g + 51) : ℚ) ≤ num / den := by
    rw [le_div_iff₀ hd']
    calc (2 ^ (g + 51) * den : ℚ) ≤ 2 ^ (g + 51) * 2 ^ (den.log2 + 1 : ℤ) := by gcongr; exact (lt_pow_log2 den).le
      _ = 2 ^ (num.log2 : ℤ) := by rw [← zpow_add₀ (by norm_num)]; congr 1; omega
      _ ≤ num := pow_log2_le hn
  have hhigh : (num / den : ℚ) < 2 ^ (g + 53) := by
    rw [div_lt_iff₀ hd']
    calc (num : ℚ) < 2 ^ (num.log2 + 1 : ℤ) := lt_pow_log2 num
      _ = 2 ^ (g + 53) * 2 ^ (den.log2 : ℤ) := by rw [← zpow_add₀ (by norm_num)]; congr 1; omega
      _ ≤ 2 ^ (g + 53) * den := by gcongr; exact pow_log2_le hd
  have hsmall := lt_mul_zpow_iff num hd g
  unfold placeExponent
  by_cases hlt : (num / den : ℚ) < 2 ^ (g + 52)
  · refine ⟨g - 1, ?_, by rwa [show g - 1 + 52 = g + 51 by ring], by rwa [show g - 1 + 53 = g + 52 by ring]⟩
    dsimp only
    rw [if_pos (hsmall.mpr hlt)]
  · refine ⟨g, ?_, not_lt.mp hlt, hhigh⟩
    dsimp only
    rw [if_neg (fun h => hlt (hsmall.mp h))]

/-! ## Numbers that round to a double -/

/-- From `m - below` up to `m + 1 / 2` multiples of a place, without the ends for an odd `m`. -/
structure Near (m : ℕ) (e : ℤ) (below v : ℚ) : Prop where
  low : (m - below) * 2 ^ e ≤ v
  high : v ≤ (m + 1 / 2) * 2 ^ e
  odd : m % 2 = 1 → (m - below) * 2 ^ e < v ∧ v < (m + 1 / 2) * 2 ^ e

/-- Half of the way to the neighbour below, which is nearer below a power of two. -/
def halfBelow (a : Magnitude) : ℚ := if a.mantissa = 2 ^ 52 ∧ a.exponent > -1074 then 1 / 4 else 1 / 2

def RoundsTo (a : Magnitude) (v : ℚ) : Prop := Near a.mantissa a.exponent (halfBelow a) v

def roundedAt (num den : ℕ) (e : ℤ) : ℕ :=
  if e ≥ 0 then roundHalfEven num (den * Nat.pow 2 e.toNat) else roundHalfEven (num * Nat.pow 2 (-e).toNat) den

theorem Near.roundHalfEven_eq {num den m : ℕ} (hd : 0 < den) (h : Near m 0 (1 / 2) (num / den)) :
    roundHalfEven num den = m := by
  have hd' : (0 : ℚ) < den := by exact_mod_cast hd
  obtain ⟨hlow, hhigh, hodd⟩ := h
  simp only [zpow_zero, mul_one] at hlow hhigh hodd
  rw [le_div_iff₀ hd'] at hlow
  rw [div_le_iff₀ hd'] at hhigh
  refine JossLang.roundHalfEven_eq ?_ ?_ (fun hm => ?_) hd
  · have : (2 * (m * den) : ℚ) ≤ 2 * num + den := by linarith
    exact_mod_cast this
  · have : (2 * num : ℚ) ≤ 2 * (m * den) + den := by linarith
    exact_mod_cast this
  · obtain ⟨hlow, hhigh⟩ := hodd hm
    rw [lt_div_iff₀ hd'] at hlow
    rw [div_lt_iff₀ hd'] at hhigh
    have h1 : (2 * (m * den) : ℚ) < 2 * num + den := by linarith
    have h2 : (2 * num : ℚ) < 2 * (m * den) + den := by linarith
    exact ⟨by exact_mod_cast h1, by exact_mod_cast h2⟩

theorem Near.scale {m : ℕ} {e : ℤ} {below v : ℚ} (h : Near m e below v) : Near m 0 below (v * 2 ^ (-e)) := by
  have hpos : (0 : ℚ) < 2 ^ (-e) := by positivity
  have hcancel : ∀ w : ℚ, w * 2 ^ e * 2 ^ (-e) = w * 2 ^ (0 : ℤ) := fun w => by
    rw [mul_assoc, ← zpow_add₀ (by norm_num), add_neg_cancel]
  refine ⟨?_, ?_, fun hm => ⟨?_, ?_⟩⟩
  · rw [← hcancel]
    exact mul_le_mul_of_nonneg_right h.low hpos.le
  · rw [← hcancel]
    exact mul_le_mul_of_nonneg_right h.high hpos.le
  · rw [← hcancel]
    exact mul_lt_mul_of_pos_right (h.odd hm).1 hpos
  · rw [← hcancel]
    exact mul_lt_mul_of_pos_right (h.odd hm).2 hpos

theorem Near.roundedAt_eq {num den m : ℕ} (hd : 0 < den) {e : ℤ} (h : Near m e (1 / 2) (num / den)) :
    roundedAt num den e = m := by
  have hs := h.scale
  unfold roundedAt
  by_cases he : e ≥ 0
  · obtain ⟨n, rfl⟩ := Int.eq_ofNat_of_zero_le he
    rw [if_pos he, Int.toNat_natCast]
    refine Near.roundHalfEven_eq (Nat.mul_pos hd (Nat.pow_pos (by decide))) ?_
    rw [zpow_neg, zpow_natCast, ← div_eq_mul_inv, div_div] at hs
    simpa using hs
  · obtain ⟨n, hn⟩ := Int.eq_ofNat_of_zero_le (show 0 ≤ -e by omega)
    rw [if_neg he, hn, Int.toNat_natCast]
    refine Near.roundHalfEven_eq hd ?_
    rw [hn, zpow_natCast, div_mul_eq_mul_div] at hs
    simpa using hs

theorem nearest_eq_ofFields (negative : Bool) {num den : ℕ} (h : 0 < num) : nearest negative num den =
    ofFields negative ((placeExponent num den + 1074).toNat * Nat.pow 2 52 + roundedAt num den (placeExponent num den)) := by
  unfold nearest roundedAt
  rw [if_neg h.ne']

/-! ## The nearest double -/

theorem RoundsTo.near {m : ℕ} {e : ℤ} {v : ℚ} (h : RoundsTo ⟨m, e⟩ v) : Near m e (1 / 2) v := by
  by_cases hpow : m = 2 ^ 52 ∧ e > -1074
  · refine ⟨le_trans ?_ h.low, h.high, fun hodd => ?_⟩
    · rw [halfBelow, if_pos hpow]
      gcongr
      norm_num
    · rw [hpow.1] at hodd
      exact absurd hodd (by decide)
  · have hn : Near m e (halfBelow ⟨m, e⟩) v := h
    rwa [halfBelow, if_neg hpow] at hn

section
variable {m : ℕ} {e : ℤ} {v : ℚ} (hc : Canonical m e) (h : RoundsTo ⟨m, e⟩ v)
include hc h

theorem RoundsTo.pos : 0 < v := by
  have hm : (1 : ℚ) ≤ m := by exact_mod_cast hc.pos
  have hbelow : halfBelow ⟨m, e⟩ ≤ 1 / 2 := by
    unfold halfBelow
    split <;> norm_num
  calc (0 : ℚ) < (m - halfBelow ⟨m, e⟩) * 2 ^ e := mul_pos (by linarith) (by positivity)
    _ ≤ v := h.low

theorem RoundsTo.lt : v < 2 ^ (e + 53) := by
  have hm : (m + 1 : ℚ) ≤ 2 ^ (53 : ℤ) := by exact_mod_cast hc.small
  calc v ≤ (m + 1 / 2) * 2 ^ e := h.high
    _ < 2 ^ (53 : ℤ) * 2 ^ e := by gcongr; linarith
    _ = 2 ^ (e + 53) := by rw [← zpow_add₀ (by norm_num), add_comm]

/-- Below the powers of two that the mantissa starts with, a number rounds to the least mantissa. -/
theorem RoundsTo.least (hlt : v < 2 ^ (e + 52)) : m = 2 ^ 52 ∨ e = -1074 := by
  refine hc.full.imp (fun hfull => ?_) id
  by_contra hne
  have hm : (2 ^ 52 + 1 : ℚ) ≤ m := by exact_mod_cast Nat.lt_of_le_of_ne hfull (Ne.symm hne)
  have hlow := (h.near).low
  have : (2 ^ (e + 52) : ℚ) ≤ v := by
    calc (2 ^ (e + 52) : ℚ) = 2 ^ 52 * 2 ^ e := by rw [zpow_add₀ (by norm_num), mul_comm]; norm_num
      _ ≤ (m - 1 / 2) * 2 ^ e := by gcongr; linarith
      _ ≤ v := hlow
  linarith

/-- A number that rounds to a double rounds to the mantissa at the place of the double, or it lies below a power of two
and rounds to twice the mantissa a place lower. -/
theorem RoundsTo.place {p : ℤ} (hlow : 2 ^ (p + 52) ≤ v) (hhigh : v < 2 ^ (p + 53)) :
    max p (-1074) = e ∧ Near m e (1 / 2) v ∨
    max p (-1074) = e - 1 ∧ m = 2 ^ 52 ∧ -1074 < e ∧ Near (2 ^ 53) (e - 1) (1 / 2) v := by
  have hpe : p + 52 < e + 53 := (zpow_lt_zpow_iff_right₀ (by norm_num)).mp (hlow.trans_lt (h.lt hc))
  have hleast := hc.least
  by_cases hsame : 2 ^ (e + 52) ≤ v
  · have hep : e + 52 < p + 53 := (zpow_lt_zpow_iff_right₀ (by norm_num)).mp (hsame.trans_lt hhigh)
    exact .inl ⟨by omega, h.near⟩
  · have hlt := not_le.mp hsame
    rcases eq_or_lt_of_le hleast with he | he
    · exact .inl ⟨by omega, h.near⟩
    · obtain rfl := (h.least hc hlt).resolve_right he.ne'
      have hquarter : (2 ^ 53 - 1 / 2 : ℚ) * 2 ^ (e - 1) ≤ v := by
        have hn := h.low
        rw [halfBelow, if_pos ⟨rfl, he⟩] at hn
        rw [zpow_sub_one₀ (by norm_num)]
        push_cast at hn
        linarith
      have hep : e + 51 < p + 53 := by
        refine (zpow_lt_zpow_iff_right₀ (by norm_num : (1 : ℚ) < 2)).mp (lt_of_le_of_lt ?_ hhigh)
        calc (2 ^ (e + 51) : ℚ) = 2 ^ (e - 1 + 52) := by congr 1; ring
          _ = 2 ^ 52 * 2 ^ (e - 1) := by rw [zpow_add₀ (by norm_num), mul_comm]; norm_num
          _ ≤ (2 ^ 53 - 1 / 2) * 2 ^ (e - 1) := by gcongr; norm_num
          _ ≤ v := hquarter
      have hpe' : p + 52 < e + 52 := (zpow_lt_zpow_iff_right₀ (by norm_num)).mp (hlow.trans_lt hlt)
      refine .inr ⟨by omega, rfl, he, ?_, ?_, fun hodd => absurd hodd (by decide)⟩
      · exact_mod_cast hquarter
      · rw [zpow_add₀ (by norm_num)] at hlt
        rw [zpow_sub_one₀ (by norm_num)]
        push_cast
        norm_num at hlt ⊢
        linarith [show (0 : ℚ) < 2 ^ e by positivity]

theorem RoundsTo.nearest_eq (negative : Bool) {num den : ℕ} (hd : 0 < den) (hv : v = num / den) :
    nearest negative num den = ofFields negative ((e + 1074).toNat * 2 ^ 52 + m) := by
  subst hv
  have hd' : (0 : ℚ) < den := by exact_mod_cast hd
  have hnum : 0 < num := by
    have := h.pos hc
    rw [lt_div_iff₀ hd', zero_mul] at this
    exact_mod_cast this
  obtain ⟨p, hp, hlow, hhigh⟩ := placeExponent_eq hnum hd
  rw [nearest_eq_ofFields negative hnum, hp, Nat.pow_eq]
  rcases h.place hc hlow hhigh with ⟨hmax, hnear⟩ | ⟨hmax, rfl, he, hnear⟩
  · rw [hmax, hnear.roundedAt_eq hd]
  · -- the mantissa carries into the exponent
    rw [hmax, hnear.roundedAt_eq hd]
    exact congrArg (ofFields negative) (by omega)

end

/-! ## Fields -/

theorem toNat_toBits (x : Float) : (if isNegative x then 2 ^ 63 + (exponentField x * 2 ^ 52 + fractionField x)
    else exponentField x * 2 ^ 52 + fractionField x) = x.toBits.toNat := by
  have hlt : x.toBits.toNat < 2 ^ 64 := x.toBits.toNat_lt
  have hnegative : isNegative x = (x.toBits.toNat / 2 ^ 63 == 1) := rfl
  have hexponent : exponentField x = x.toBits.toNat / 2 ^ 52 % 2 ^ 11 := rfl
  have hfraction : fractionField x = x.toBits.toNat % 2 ^ 52 := rfl
  rw [hnegative, hexponent, hfraction]
  generalize x.toBits.toNat = n at *
  by_cases hn : n / 2 ^ 63 = 1
  · rw [if_pos (beq_iff_eq.mpr hn)]
    omega
  · rw [if_neg (by simpa using hn)]
    omega

theorem exponentField_ne {x : Float} (h : x.isFinite = true) : exponentField x ≠ 2047 := by
  intro hmax
  have hexponent : unpackExponent (bits x) = -1#11 := BitVec.eq_of_toNat_eq (by rw [toNat_unpackExponent, hmax]; rfl)
  have hfinite : (unpack Format.binary64 (bits x)).isFinite = true := h
  rw [isFinite_unpack_of_max hexponent] at hfinite
  cases hfinite

theorem ofFields_magnitude {x : Float} (h : x.isFinite = true) :
    ofFields (isNegative x) (((magnitude x).exponent + 1074).toNat * 2 ^ 52 + (magnitude x).mantissa) = x := by
  have hfraction : fractionField x < 2 ^ 52 := Nat.mod_lt _ (by decide)
  have hfield : exponentField x < 2 ^ 11 := Nat.mod_lt _ (by decide)
  have hmax := exponentField_ne h
  have hbits : ((magnitude x).exponent + 1074).toNat * 2 ^ 52 + (magnitude x).mantissa =
      exponentField x * 2 ^ 52 + fractionField x := by
    unfold magnitude
    by_cases h0 : exponentField x = 0
    · rw [if_pos h0, h0]
      rfl
    · rw [if_neg h0]
      simp only [Nat.pow_eq]
      omega
  have hbody : min (exponentField x * 2 ^ 52 + fractionField x) infinityBits = exponentField x * 2 ^ 52 + fractionField x :=
    Nat.min_eq_left (by show _ ≤ 2047 * 2 ^ 52; omega)
  have hpacked : ∀ body, ofFields (isNegative x) body = Float.ofBits (UInt64.ofNat
      (if isNegative x then 2 ^ 63 + min body infinityBits else min body infinityBits)) := fun _ => rfl
  rw [hbits, hpacked, hbody, toNat_toBits, UInt64.ofNat_toNat, Float.ofBits_toBits]

section
variable {x : Float} (h : x.isFinite = true) (h0 : value x ≠ 0)
include h h0

theorem canonical_magnitude : Canonical (magnitude x).mantissa (magnitude x).exponent := by
  rcases unpack_eq x h with ⟨-, hm⟩ | ⟨m, e, hm, -, hmagnitude, hc, -⟩
  · rw [value, hm] at h0
    simp at h0
  · rwa [hmagnitude]

/-- **Reading back.** The double nearest to a fraction is the one that the fraction rounds to. -/
theorem nearest_eq {num den : ℕ} (hd : 0 < den) (hr : RoundsTo (magnitude x) (num / den)) :
    nearest (isNegative x) num den = x := by
  rw [hr.nearest_eq (canonical_magnitude h h0) (isNegative x) hd rfl, ofFields_magnitude h]

end

end Double

end JossLang
