import JossLang.Proofs.Doubles

/-!
# Sums of doubles

A sum is rounded to a double that is nearest to it (`add_nearest`). So sums that are doubles are exact, a sum is not less
than any double that is not above it, and what is added to a number moves it if it is not too small beside it
(`lt_add`).
-/

namespace JossLang.Double

open Float.Model (UnpackedFloat Format)
open Float.Model.UnpackedFloat

/-! ## Mantissas that are shifted -/

def lowEnd (em : ExtendedMantissa) : ℚ := em.mantissa + if em.roundBit then 1 / 2 else 0

/-- The mantissa and its two bits tell of this number as much as is needed for rounding it. -/
structure Holds (em : ExtendedMantissa) (x : ℚ) : Prop where
  exact : em.stickyBit = false → x = lowEnd em
  between : em.stickyBit = true → lowEnd em < x ∧ x < lowEnd em + 1 / 2

theorem holds_exact (m : ℕ) : Holds (.ofMantissaAndAccuracy m .exact) m :=
  ⟨fun _ => by simp [lowEnd, ExtendedMantissa.ofMantissaAndAccuracy], nofun⟩

theorem lowEnd_shiftRightOne (em : ExtendedMantissa) :
    lowEnd em.shiftRightOne = em.mantissa / 2 := by
  have hparts : (em.mantissa : ℚ) = 2 * (em.mantissa / 2 : ℕ) + (em.mantissa % 2 : ℕ) := by
    exact_mod_cast (Nat.div_add_mod em.mantissa 2).symm
  rw [lowEnd, ExtendedMantissa.shiftRightOne, hparts]
  rcases Nat.mod_two_eq_zero_or_one em.mantissa with h | h
  · simp [h]
  · norm_num [h]
    ring

theorem Holds.shiftRightOne {em : ExtendedMantissa} {x : ℚ} (h : Holds em x) : Holds em.shiftRightOne (x / 2) := by
  obtain ⟨m, r, s⟩ := em
  obtain ⟨hexact, hbetween⟩ := h
  have hlow : lowEnd (ExtendedMantissa.shiftRightOne ⟨m, r, s⟩) = m / 2 := lowEnd_shiftRightOne _
  constructor
  · intro hsticky
    obtain ⟨rfl, rfl⟩ : r = false ∧ s = false := Bool.or_eq_false_iff.mp hsticky
    rw [hlow, hexact rfl, lowEnd]
    simp
  · intro hsticky
    rw [hlow]
    cases s with
    | false =>
      obtain rfl : r = true := by simpa [ExtendedMantissa.shiftRightOne] using hsticky
      have hx := hexact rfl
      simp only [lowEnd, if_true] at hx
      constructor <;> linarith
    | true =>
      obtain ⟨hlt, hgt⟩ := hbetween rfl
      simp only [lowEnd] at hlt hgt
      cases r <;> norm_num at hlt hgt <;> constructor <;> linarith

theorem Holds.shiftRight {em : ExtendedMantissa} {x : ℚ} (h : Holds em x) (n : ℕ) : Holds (em >>> n) (x / 2 ^ n) := by
  show Holds (n.repeat ExtendedMantissa.shiftRightOne em) _
  induction n with
  | zero => simpa [Nat.repeat] using h
  | succ n ih =>
    rw [Nat.repeat, pow_succ, ← div_div]
    exact ih.shiftRightOne

theorem Holds.roundedMantissa {em : ExtendedMantissa} {x : ℚ} (h : Holds em x) : |(em.roundedMantissa : ℚ) - x| ≤ 1 / 2 := by
  obtain ⟨m, r, s⟩ := em
  obtain ⟨hexact, hbetween⟩ := h
  rw [abs_le]
  cases s with
  | false =>
    have hx := hexact rfl
    cases r with
    | false =>
      simp only [lowEnd, Bool.false_eq_true, if_false, add_zero] at hx
      simp [ExtendedMantissa.roundedMantissa, ExtendedMantissa.accuracy, Accuracy.roundToNearestEven, hx]
    | true =>
      simp only [lowEnd, if_true] at hx
      rcases Nat.mod_two_eq_zero_or_one m with hm | hm <;>
        simp only [ExtendedMantissa.roundedMantissa, ExtendedMantissa.accuracy, Accuracy.roundToNearestEven, hx, hm] <;>
        norm_num
  | true =>
    obtain ⟨hlt, hgt⟩ := hbetween rfl
    cases r with
    | false =>
      simp only [lowEnd, Bool.false_eq_true, if_false, add_zero] at hlt hgt
      simp only [ExtendedMantissa.roundedMantissa, ExtendedMantissa.accuracy, Accuracy.roundToNearestEven]
      constructor <;> linarith
    | true =>
      simp only [lowEnd, if_true] at hlt hgt
      simp only [ExtendedMantissa.roundedMantissa, ExtendedMantissa.accuracy, Accuracy.roundToNearestEven]
      push_cast
      constructor <;> linarith

/-! ## Rounding -/

/-- The exponent of the last place of a number that is rounded. -/
def lastPlace (m : ℕ) (e : ℤ) : ℤ := max (m.log2 + 1 + e - 53) (-1074)

theorem shiftToTargetExponent_eq (m : ℕ) (e : ℤ) : shiftToTargetExponent Format.binary64 m e .exact =
    (ExtendedMantissa.ofMantissaAndAccuracy m .exact >>> (lastPlace m e - e).toNat, e + (lastPlace m e - e).toNat) := rfl

def ofParts (s : Sign) (m : ℕ) (e : ℤ) : UnpackedFloat :=
  if h : m = 0 then .zero s else .finite s m e (Nat.pos_of_ne_zero h)

theorem numberValue_ofParts (s : Sign) (m : ℕ) (e : ℤ) : numberValue (ofParts s m e) = s.apply m * 2 ^ e := by
  unfold ofParts
  split
  · next h =>
    subst h
    cases s <;> simp [numberValue, Sign.apply]
  · rfl

theorem isNumber_ofParts (s : Sign) {m : ℕ} {e : ℤ} (h : m < 2 ^ 53) (hleast : -1074 ≤ e) (hfull : 2 ^ 52 ≤ m ∨ e = -1074) :
    IsNumber (ofParts s m e) := by
  unfold ofParts
  split
  · trivial
  · next hm => exact ⟨Nat.pos_of_ne_zero hm, h, hleast, hfull⟩

def carried (s : Sign) (r : ℕ) (t : ℤ) : UnpackedFloat :=
  let p := shiftToTargetExponent Format.binary64 r t .exact
  ofParts s p.1.mantissa p.2

theorem carried_spec (s : Sign) {r : ℕ} {t : ℤ} (hr : r ≤ 2 ^ 53) (ht : -1074 ≤ t) (hfull : 2 ^ 52 ≤ r ∨ t = -1074) :
    IsNumber (carried s r t) ∧ numberValue (carried s r t) = s.apply r * 2 ^ t := by
  rcases hr.lt_or_eq with hlt | rfl
  · have hlog : r.log2 < 53 := by
      rcases Nat.eq_zero_or_pos r with rfl | hpos
      · decide
      · exact (Nat.log2_lt hpos.ne').mpr hlt
    have hplace : (lastPlace r t - t).toNat = 0 := by
      unfold lastPlace
      omega
    have hcarried : carried s r t = ofParts s r (t + 0) := by
      rw [carried, shiftToTargetExponent_eq, hplace]
      rfl
    rw [hcarried, add_zero]
    exact ⟨isNumber_ofParts s hlt ht hfull, numberValue_ofParts s r t⟩
  · have hplace : (lastPlace (2 ^ 53) t - t).toNat = 1 := by
      rw [lastPlace, Nat.log2_two_pow]
      omega
    have hcarried : carried s (2 ^ 53) t = ofParts s (2 ^ 52) (t + 1) := by
      rw [carried, shiftToTargetExponent_eq, hplace]
      rfl
    rw [hcarried, numberValue_ofParts]
    refine ⟨isNumber_ofParts s (by decide) (by omega) (.inl le_rfl), ?_⟩
    rw [zpow_add_one₀ (by norm_num)]
    cases s <;> simp only [Sign.apply] <;> push_cast <;> ring

structure Rounded (s : Sign) (m : ℕ) (e : ℤ) (a : UnpackedFloat) : Prop where
  number : IsNumber a
  near : ∃ r : ℕ, |(r : ℚ) - m * 2 ^ (e - lastPlace m e)| ≤ 1 / 2 ∧ numberValue a = s.apply r * 2 ^ lastPlace m e

theorem le_lastPlace (m : ℕ) (e : ℤ) : -1074 ≤ lastPlace m e := le_max_right _ _

theorem mantissa_bounds {m : ℕ} (hm : 0 < m) (e : ℤ) :
    (m * 2 ^ (e - lastPlace m e) : ℚ) < 2 ^ 53 ∧ ((2 ^ 52 : ℚ) ≤ m * 2 ^ (e - lastPlace m e) ∨ lastPlace m e = -1074) := by
  have hlow : (2 ^ (m.log2 : ℤ) : ℚ) ≤ m := by exact_mod_cast Nat.log2_self_le hm.ne'
  have hhigh : (m : ℚ) < 2 ^ (m.log2 + 1 : ℤ) := by exact_mod_cast Nat.lt_log2_self
  constructor
  · calc (m * 2 ^ (e - lastPlace m e) : ℚ) < 2 ^ (m.log2 + 1 : ℤ) * 2 ^ (e - lastPlace m e) := by gcongr
      _ = 2 ^ (m.log2 + 1 + (e - lastPlace m e)) := (zpow_add₀ (by norm_num) _ _).symm
      _ ≤ 2 ^ (53 : ℤ) := zpow_le_zpow_right₀ (by norm_num) (by unfold lastPlace; omega)
      _ = 2 ^ 53 := by norm_num
  · by_cases hplace : lastPlace m e = -1074
    · exact .inr hplace
    · refine .inl ?_
      calc (2 ^ 52 : ℚ) = 2 ^ (52 : ℤ) := by norm_num
        _ ≤ 2 ^ (m.log2 + (e - lastPlace m e)) := zpow_le_zpow_right₀ (by norm_num) (by unfold lastPlace at *; omega)
        _ = 2 ^ (m.log2 : ℤ) * 2 ^ (e - lastPlace m e) := zpow_add₀ (by norm_num) _ _
        _ ≤ m * 2 ^ (e - lastPlace m e) := by gcongr

theorem roundWithAccuracy_rounded (s : Sign) {m : ℕ} (hm : 0 < m) {e : ℤ} (he : e ≤ lastPlace m e) :
    Rounded s m e (roundWithAccuracy Format.binary64 s m e .exact) := by
  let k := (lastPlace m e - e).toNat
  let em := ExtendedMantissa.ofMantissaAndAccuracy m .exact >>> k
  have hk : e + k = lastPlace m e := by omega
  have hround : roundWithAccuracy Format.binary64 s m e .exact = carried s em.roundedMantissa (e + k) := rfl
  have hx : (m / 2 ^ k : ℚ) = m * 2 ^ (e - lastPlace m e) := by
    rw [show e - lastPlace m e = -(k : ℤ) by omega, zpow_neg, zpow_natCast, div_eq_mul_inv]
  have hnear : |(em.roundedMantissa : ℚ) - m * 2 ^ (e - lastPlace m e)| ≤ 1 / 2 := by
    rw [← hx]
    exact ((holds_exact m).shiftRight k).roundedMantissa
  obtain ⟨hhigh, hlow⟩ := mantissa_bounds hm e
  obtain ⟨hmin, hmax⟩ := abs_le.mp hnear
  have hle : em.roundedMantissa ≤ 2 ^ 53 := by
    have : (em.roundedMantissa : ℚ) < 2 ^ 53 + 1 := by linarith
    exact Nat.lt_succ_iff.mp (by exact_mod_cast this)
  have hfull : 2 ^ 52 ≤ em.roundedMantissa ∨ lastPlace m e = -1074 := by
    refine hlow.imp_left fun hlow => ?_
    have : (2 ^ 52 : ℚ) < em.roundedMantissa + 1 := by linarith
    exact Nat.lt_succ_iff.mp (by exact_mod_cast this)
  obtain ⟨hnumber, hvalue⟩ := carried_spec s hle (le_lastPlace m e) hfull
  rw [hround, hk]
  exact ⟨hnumber, _, hnear, hvalue⟩

theorem round_rounded (s : Sign) {m : ℕ} (hm : 0 < m) (e : ℤ) : Rounded s m e (round Format.binary64 s m e) := by
  let k := (e - lastPlace m e).toNat
  have hround : round Format.binary64 s m e = roundWithAccuracy Format.binary64 s (m * 2 ^ k) (e - k) .exact := by
    rw [← Nat.shiftLeft_eq]
    rfl
  have hlog : (m * 2 ^ k).log2 = m.log2 + k := by
    rw [Nat.log2_eq_iff (Nat.mul_pos hm (Nat.two_pow_pos k)).ne', pow_add, add_right_comm, pow_add _ (m.log2 + 1)]
    exact ⟨Nat.mul_le_mul_right _ (Nat.log2_self_le hm.ne'),
      Nat.mul_lt_mul_of_pos_right Nat.lt_log2_self (Nat.two_pow_pos k)⟩
  have hplace : lastPlace (m * 2 ^ k) (e - k) = lastPlace m e := by
    rw [lastPlace, hlog, lastPlace]
    push_cast
    congr 1
    ring
  have hx : ((m * 2 ^ k : ℕ) * 2 ^ (e - k - lastPlace m e) : ℚ) = m * 2 ^ (e - lastPlace m e) := by
    push_cast
    rw [mul_assoc, ← zpow_natCast, ← zpow_add₀ (by norm_num)]
    congr 2
    ring
  obtain ⟨hnumber, r, hnear, hvalue⟩ :=
    roundWithAccuracy_rounded s (Nat.mul_pos hm (Nat.two_pow_pos k)) (e := e - k) (by rw [hplace]; omega)
  rw [hplace, hx] at hnear
  rw [hplace] at hvalue
  rw [hround]
  exact ⟨hnumber, r, hnear, hvalue⟩

/-! ## Nearest doubles -/

/-- A number that a double could be, if exponents had no upper bound. -/
def Representable (q : ℚ) : Prop := ∃ k f : ℤ, |k| ≤ 2 ^ 53 ∧ -1074 ≤ f ∧ q = k * 2 ^ f

theorem Representable.neg {q : ℚ} (h : Representable q) : Representable (-q) := by
  obtain ⟨k, f, hk, hf, rfl⟩ := h
  exact ⟨-k, f, by rwa [abs_neg], hf, by push_cast; ring⟩

theorem representable_numberValue {a : UnpackedFloat} (h : IsNumber a) : Representable (numberValue a) := by
  cases a with
  | infinity | notANumber => exact h.elim
  | zero s => exact ⟨0, 0, by decide, by decide, by simp [numberValue]⟩
  | finite s m e hm =>
    have hpos : Representable (m * 2 ^ e) := ⟨m, e, by rw [Nat.abs_cast]; exact_mod_cast h.small.le, h.least, by simp⟩
    cases s with
    | positive => rwa [numberValue_positive]
    | negative =>
      rw [numberValue_negative]
      exact hpos.neg

theorem representable_value {x : Float} (h : x.isFinite = true) : Representable (value x) := by
  rw [value_eq h]
  exact representable_numberValue (isNumber_unpack h)

/-- A step further than a double by its last place is another one. -/
theorem representable_next {x : Float} (h : x.isFinite = true) :
    ∃ e : ℤ, Representable (value x + 2 ^ e) ∧ (2 ^ (e + 52) ≤ |value x| ∨ e = -1074) := by
  rw [value_eq h]
  rcases unpack_eq x h with ⟨hu, -⟩ | ⟨m, e, hm, hu, -, hc, -⟩
  · exact ⟨-1074, ⟨1, -1074, by decide, le_rfl, by rw [hu, numberValue_zero]; simp⟩, .inr rfl⟩
  · have hplace : (2 ^ (e + 52) : ℚ) ≤ m * 2 ^ e ∨ e = -1074 :=
      or_iff_not_imp_right.mpr fun he => hc.le_value le_rfl (lt_of_le_of_ne hc.least (Ne.symm he))
    have hsmall := hc.small
    rw [hu]
    cases signOf x with
    | positive =>
      rw [numberValue_positive, abs_of_pos hc.value_pos]
      exact ⟨e, ⟨m + 1, e, abs_le.mpr ⟨by omega, by omega⟩, hc.least, by push_cast; ring⟩, hplace⟩
    | negative =>
      rw [numberValue_negative, abs_neg, abs_of_pos hc.value_pos]
      exact ⟨e, ⟨1 - m, e, abs_le.mpr ⟨by omega, by omega⟩, hc.least, by push_cast; ring⟩, hplace⟩

theorem least_le_value {x : Float} (h : x.isFinite = true) (hpos : 0 < value x) : (2 ^ (-1074 : ℤ) : ℚ) ≤ value x := by
  rw [value_eq h] at hpos ⊢
  rcases unpack_eq x h with ⟨hu, -⟩ | ⟨m, e, hm, hu, -, hc, -⟩
  · rw [hu, numberValue_zero] at hpos
    exact absurd hpos (lt_irrefl 0)
  · rw [hu] at hpos ⊢
    cases hs : signOf x with
    | positive =>
      have hone : (1 : ℚ) ≤ m := by exact_mod_cast hm
      have hpow : (2 ^ (-1074 : ℤ) : ℚ) ≤ 2 ^ e := zpow_le_zpow_right₀ (by norm_num) hc.least
      rw [numberValue_positive]
      calc (2 ^ (-1074 : ℤ) : ℚ) = 1 * 2 ^ (-1074 : ℤ) := (one_mul _).symm
        _ ≤ m * 2 ^ e := by gcongr
    | negative =>
      rw [hs, numberValue_negative] at hpos
      linarith [hc.value_pos]

theorem representable_int {n : ℤ} (h : |n| ≤ 2 ^ 53) : Representable n := ⟨n, 0, h, by decide, by simp⟩

def Nearest (p v : ℚ) : Prop := ∀ q, Representable q → |p - v| ≤ |q - v|

theorem nearest_self (v : ℚ) : Nearest v v := fun q _ => by
  rw [sub_self, abs_zero]
  exact abs_nonneg _

theorem Nearest.neg {p v : ℚ} (h : Nearest p v) : Nearest (-p) (-v) := by
  intro q hq
  have := h (-q) hq.neg
  rwa [← neg_sub', abs_neg, ← abs_neg (q - -v), neg_sub', neg_neg]

theorem Nearest.eq {p v : ℚ} (h : Nearest p v) (hv : Representable v) : p = v := by
  have := h v hv
  rw [sub_self, abs_zero] at this
  exact sub_eq_zero.mp (abs_nonpos_iff.mp this)

theorem Nearest.le {p v q : ℚ} (h : Nearest p v) (hq : Representable q) (hle : q ≤ v) : q ≤ p := by
  have hnear := h q hq
  rw [abs_of_nonpos (sub_nonpos.mpr hle)] at hnear
  linarith [neg_abs_le (p - v)]

/-- A multiple of the last place is not nearer than the rounded mantissa. -/
theorem nearest_of_multiple {r : ℕ} {x : ℚ} (hr : |(r : ℚ) - x| ≤ 1 / 2) (j : ℤ) : |(r : ℚ) - x| ≤ |(j : ℚ) - x| := by
  by_cases hj : j = r
  · rw [hj, Int.cast_natCast]
  · have hdist : (1 : ℚ) ≤ |(j : ℚ) - r| := by exact_mod_cast Int.one_le_abs (sub_ne_zero.mpr hj)
    have htriangle : |(j : ℚ) - r| ≤ |(j : ℚ) - x| + |(r : ℚ) - x| := by
      rw [abs_sub_comm (r : ℚ) x]
      exact abs_sub_le _ _ _
    linarith

theorem nearest_rounded {m : ℕ} (hm : 0 < m) (e : ℤ) {r : ℕ} (hr : |(r : ℚ) - m * 2 ^ (e - lastPlace m e)| ≤ 1 / 2) :
    Nearest (r * 2 ^ lastPlace m e) (m * 2 ^ e) := by
  have ht := le_lastPlace m e
  obtain ⟨-, hlow⟩ := mantissa_bounds hm e
  have hm2 : (m * 2 ^ e : ℚ) = m * 2 ^ (e - lastPlace m e) * 2 ^ lastPlace m e := by
    rw [mul_assoc, ← zpow_add₀ (by norm_num), sub_add_cancel]
  rw [hm2]
  generalize lastPlace m e = t at *
  generalize (m * 2 ^ (e - t) : ℚ) = x at *
  have hpos : (0 : ℚ) < 2 ^ t := by positivity
  have hmultiple : ∀ j : ℤ, |(r * 2 ^ t : ℚ) - x * 2 ^ t| ≤ |j * 2 ^ t - x * 2 ^ t| := by
    intro j
    rw [← sub_mul, ← sub_mul, abs_mul, abs_mul]
    exact mul_le_mul_of_nonneg_right (nearest_of_multiple hr j) (abs_nonneg _)
  rintro q ⟨k, f, hk, hf, rfl⟩
  rcases le_or_gt t f with htf | hft
  · obtain ⟨n, hn⟩ := Int.eq_ofNat_of_zero_le (sub_nonneg.mpr htf)
    have hq : (k * 2 ^ f : ℚ) = (k * 2 ^ n : ℤ) * 2 ^ t := by
      push_cast
      rw [mul_assoc, ← zpow_natCast, ← zpow_add₀ (by norm_num), ← hn, sub_add_cancel]
    rw [hq]
    exact hmultiple _
  · -- what is no multiple of the last place lies below all mantissas of 53 bits, and the least of these is nearer
    have hlow := hlow.resolve_right (by omega)
    have hk' : (k : ℚ) ≤ 2 ^ 53 := by exact_mod_cast (le_abs_self k).trans hk
    have hpow : (2 ^ f : ℚ) ≤ 2 ^ (t - 1) := zpow_le_zpow_right₀ (by norm_num) (by omega)
    have hhalf : (2 ^ t : ℚ) = 2 * 2 ^ (t - 1) := by rw [zpow_sub_one₀ (by norm_num)]; ring
    have hbelow : (k * 2 ^ f : ℚ) ≤ 2 ^ 52 * 2 ^ t := by
      calc (k * 2 ^ f : ℚ) ≤ 2 ^ 53 * 2 ^ (t - 1) := by gcongr
        _ = 2 ^ 52 * 2 ^ t := by rw [hhalf]; ring
    have habove : (2 ^ 52 * 2 ^ t : ℚ) ≤ x * 2 ^ t := by gcongr
    have hleast := hmultiple (2 ^ 52)
    rw [Int.cast_pow, Int.cast_ofNat] at hleast
    rw [abs_of_nonpos (sub_nonpos.mpr habove)] at hleast
    rw [abs_of_nonpos (sub_nonpos.mpr (hbelow.trans habove))]
    linarith

theorem Rounded.nearest {s : Sign} {m : ℕ} (hm : 0 < m) {e : ℤ} {a : UnpackedFloat} (h : Rounded s m e a) :
    Nearest (numberValue a) (s.apply m * 2 ^ e) := by
  obtain ⟨-, r, hr, hvalue⟩ := h
  have hnear := nearest_rounded hm e hr
  rw [hvalue]
  cases s with
  | positive => simpa [Sign.apply] using hnear
  | negative => simpa [Sign.apply] using hnear.neg

/-! ## Sums -/

theorem normalize_nearest (n : ℤ) (e : ℤ) (s : Sign) :
    IsNumber (UnpackedFloat.normalize Format.binary64 n e s) ∧
      Nearest (numberValue (UnpackedFloat.normalize Format.binary64 n e s)) (n * 2 ^ e) := by
  unfold UnpackedFloat.normalize
  split
  · next h =>
    have hn : 0 < (-n).toNat := by
      have := compare_lt_iff_lt.mp h
      omega
    have hround := round_rounded .negative hn e
    have hnear := hround.nearest hn
    rw [Sign.apply, Int.toNat_of_nonneg (by omega), neg_neg] at hnear
    exact ⟨hround.number, hnear⟩
  · next h =>
    rw [compare_eq_iff_eq.mp h, Int.cast_zero, zero_mul]
    exact ⟨trivial, nearest_self 0⟩
  · next h =>
    have hn : 0 < n.toNat := by
      have := compare_gt_iff_gt.mp h
      omega
    have hround := round_rounded .positive hn e
    have hnear := hround.nearest hn
    rw [Sign.apply, Int.toNat_of_nonneg (by omega)] at hnear
    exact ⟨hround.number, hnear⟩

theorem decreaseExponent_value (s : Sign) (m : ℕ) {e f : ℤ} (h : f ≤ e) :
    (s.apply (decreaseExponent m e f).1 * 2 ^ f : ℚ) = s.apply m * 2 ^ e := by
  obtain ⟨k, hk⟩ := Int.eq_ofNat_of_zero_le (sub_nonneg.mpr h)
  have hpow : (2 ^ e : ℚ) = 2 ^ k * 2 ^ f := by
    rw [← zpow_natCast, ← zpow_add₀ (by norm_num), ← hk, sub_add_cancel]
  rw [decreaseExponent, hk, Int.toNat_natCast, Nat.shiftLeft_eq, hpow]
  cases s <;> simp only [Sign.apply] <;> push_cast <;> ring

theorem unpacked_add_nearest {a b : UnpackedFloat} (ha : IsNumber a) (hb : IsNumber b) :
    IsNumber (add Format.binary64 a b) ∧
      Nearest (numberValue (add Format.binary64 a b)) (numberValue a + numberValue b) := by
  cases a with
  | infinity | notANumber => exact ha.elim
  | zero s =>
    rw [numberValue_zero, zero_add]
    cases b with
    | infinity | notANumber => exact hb.elim
    | zero t =>
      rw [add]
      split <;> exact ⟨trivial, nearest_self 0⟩
    | finite t n f hn => exact ⟨hb, nearest_self _⟩
  | finite s m e hm =>
    cases b with
    | infinity | notANumber => exact hb.elim
    | zero t =>
      rw [numberValue_zero, add_zero]
      exact ⟨ha, nearest_self _⟩
    | finite t n f hn =>
      have hsum : numberValue (.finite s m e hm) + numberValue (.finite t n f hn) =
          (s.apply (decreaseExponent m e (min e f)).1 + t.apply (decreaseExponent n f (min e f)).1 : ℤ) * 2 ^ min e f := by
        push_cast
        rw [add_mul, decreaseExponent_value s m (min_le_left e f), decreaseExponent_value t n (min_le_right e f)]
        rfl
      rw [hsum]
      exact normalize_nearest _ _ _

theorem lt_infinity {x y : Float} (hx : x.isFinite = true) (hy : y.toModel.unpack = .infinity .positive) :
    x < y ∧ ¬ y < x := by
  rw [lt_iff_compare, lt_iff_compare, hy]
  have hnumber := isNumber_unpack hx
  generalize x.toModel.unpack = a at hnumber
  cases a with
  | infinity | notANumber => exact hnumber.elim
  | zero s => exact ⟨rfl, nofun⟩
  | finite s m e hm => cases s <;> exact ⟨rfl, nofun⟩

section
variable {x y z : Float} (hx : x.isFinite = true) (hy : y.isFinite = true)
include hx hy

/-- A sum is a double nearest to the exact one, or an infinity where this has an exponent that is too large. -/
theorem add_nearest : ∃ p, Nearest p (value x + value y) ∧
    ((x + y).isFinite = true ∧ value (x + y) = p ∨ 2 ^ (1024 : ℤ) ≤ p ∧ (x + y).toModel.unpack = .infinity .positive ∨
      p ≤ -2 ^ (1024 : ℤ) ∧ (x + y).toModel.unpack = .infinity .negative) := by
  obtain ⟨hnumber, hnear⟩ := unpacked_add_nearest (isNumber_unpack hx) (isNumber_unpack hy)
  rw [← value_eq hx, ← value_eq hy] at hnear
  have hpack : (x + y).toModel.unpack =
      (Float.Model.pack (add Format.binary64 x.toModel.unpack y.toModel.unpack)).unpack := rfl
  have hkept : ∀ a, a.isFinite = true → (x + y).toModel.unpack = a → (x + y).isFinite = true ∧ value (x + y) = numberValue a := by
    intro a ha hu
    have hfinite : (x + y).isFinite = true := by
      show (x + y).toModel.unpack.isFinite = true
      rw [hu, ha]
    exact ⟨hfinite, by rw [value_eq hfinite, hu]⟩
  refine ⟨_, hnear, ?_⟩
  generalize add Format.binary64 x.toModel.unpack y.toModel.unpack = a at hnumber hpack
  cases a with
  | infinity | notANumber => exact hnumber.elim
  | zero s =>
    rw [unpack_pack_zero] at hpack
    exact .inl (hkept _ rfl hpack)
  | finite s m e hm =>
    rw [unpack_pack_finite hm hnumber] at hpack
    split at hpack
    · exact .inl (hkept _ rfl hpack)
    · next he =>
      have hlarge : (2 ^ (1024 : ℤ) : ℚ) ≤ m * 2 ^ e := Canonical.le_value hnumber (f := 972) (by omega) (by omega)
      cases s with
      | positive =>
        rw [numberValue_positive]
        exact .inr (.inl ⟨hlarge, hpack⟩)
      | negative =>
        rw [numberValue_negative]
        exact .inr (.inr ⟨neg_le_neg hlarge, hpack⟩)

theorem not_add_lt (hz : z.isFinite = true) (hle : value z ≤ value x + value y) : ¬ x + y < z := by
  obtain ⟨p, hnear, ⟨hfinite, hp⟩ | ⟨-, hu⟩ | ⟨hp, -⟩⟩ := add_nearest hx hy
  · rw [lt_iff hfinite hz, hp, not_lt]
    exact hnear.le (representable_value hz) hle
  · exact (lt_infinity hz hu).2
  · have := hnear.le (representable_value hz) hle
    have := abs_lt.mp (abs_value_lt hz)
    linarith

theorem add_exact (hsum : Representable (value x + value y)) (hlt : |value x + value y| < 2 ^ (1024 : ℤ)) :
    (x + y).isFinite = true ∧ value (x + y) = value x + value y := by
  obtain ⟨p, hnear, h⟩ := add_nearest hx hy
  rw [hnear.eq hsum] at h
  have hbounds := abs_lt.mp hlt
  rcases h with h | ⟨hp, -⟩ | ⟨hp, -⟩
  · exact h
  · linarith
  · linarith

variable (hpos : 0 < value y)
include hpos

theorem add_pos_cases : (x + y).isFinite = true ∧ value x ≤ value (x + y) ∨ (x + y).toModel.unpack = .infinity .positive := by
  obtain ⟨p, hnear, h⟩ := add_nearest hx hy
  have hle : value x ≤ p := hnear.le (representable_value hx) (by linarith)
  rcases h with ⟨hfinite, rfl⟩ | ⟨-, hu⟩ | ⟨hp, -⟩
  · exact .inl ⟨hfinite, hle⟩
  · exact .inr hu
  · have := abs_lt.mp (abs_value_lt hx)
    linarith

theorem lt_add_or_eq : x < x + y ∨ x + y = x := by
  rcases add_pos_cases hx hy hpos with ⟨hfinite, hle⟩ | hu
  · rcases hle.lt_or_eq with hlt | heq
    · exact .inl ((lt_iff hx hfinite).mpr hlt)
    · refine .inr (eq_of_value_eq hfinite hx heq.symm ?_)
      rw [← heq]
      -- zero would have become what is added to it
      intro h0
      have hexact := add_exact hx hy (by rw [h0, zero_add]; exact representable_value hy)
        (by rw [h0, zero_add]; exact abs_value_lt hy)
      rw [h0, zero_add] at hexact
      linarith [hexact.2]
  · exact .inl (lt_infinity hx hu).1

/-- What is not too small beside a number moves it. -/
theorem lt_add (h : |value x| < 2 ^ 53 * value y) : x < x + y := by
  refine (lt_add_or_eq hx hy hpos).resolve_right fun heq => ?_
  obtain ⟨p, hnear, hsum⟩ := add_nearest hx hy
  rw [heq] at hsum
  obtain rfl : value x = p := by
    rcases hsum with ⟨-, hp⟩ | ⟨-, hu⟩ | ⟨-, hu⟩
    · exact hp
    · exact absurd (isNumber_unpack hx) (by rw [hu]; exact id)
    · exact absurd (isNumber_unpack hx) (by rw [hu]; exact id)
  -- the next double would be nearer
  obtain ⟨e, hnext, hplace⟩ := representable_next hx
  have hclose : (2 ^ e : ℚ) < 2 * value y := by
    rcases hplace with hplace | rfl
    · rw [zpow_add₀ (by norm_num)] at hplace
      norm_num at hplace
      linarith
    · linarith [least_le_value hy hpos]
  have hdist := hnear _ hnext
  have hleft : value x - (value x + value y) = -value y := by ring
  have hright : value x + 2 ^ e - (value x + value y) = 2 ^ e - value y := by ring
  have hunit : (0 : ℚ) < 2 ^ e := by positivity
  rw [hleft, hright, abs_neg, abs_of_pos hpos] at hdist
  exact absurd hdist (not_le.mpr (abs_lt.mpr ⟨by linarith, by linarith⟩))

end

end JossLang.Double
