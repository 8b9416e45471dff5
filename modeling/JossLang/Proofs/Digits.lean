import JossLang.Text.Digit
import Mathlib

/-!
# Digits and what they denote

A run of digits denotes a natural number, and behind a point the fraction
`0.d₁d₂…`. Main statement: without a zero at the end, the digits of a fraction
are the only ones that denote it (`fractionValue_inj`).
-/

namespace JossLang

/-! ## ASCII digits -/

def AsciiDigits (cs : List Char) : Prop := ∀ c ∈ cs, c.isDigit

theorem digitValue?_ascii {c : Char} (h : c.isDigit) : digitValue? c = some (c.toNat - 48) := by
  have hc : 48 ≤ c.toNat ∧ c.toNat < 58 := by
    simp only [Char.isDigit, Bool.and_eq_true, decide_eq_true_eq, ge_iff_le, UInt32.le_iff_toNat_le] at h
    exact ⟨h.1, Nat.lt_succ_of_le h.2⟩
  simp [digitValue?, digitZeros, hc]

theorem isDigit_ascii {c : Char} (h : c.isDigit) : isDigit c := by
  simp [JossLang.isDigit, digitValue?_ascii h]

theorem digitValue_ascii {c : Char} (h : c.isDigit) : digitValue c = c.toNat - 48 := by
  simp [digitValue, digitValue?_ascii h]

theorem digitValue_lt (c : Char) : digitValue c < 10 := by
  unfold digitValue
  cases h : digitValue? c with
  | none => simp
  | some d => exact digitValue?_lt h

theorem digitValue_inj {c d : Char} (hc : c.isDigit) (hd : d.isDigit) (h : digitValue c = digitValue d) :
    c = d := by
  rw [digitValue_ascii hc, digitValue_ascii hd] at h
  have h0 : ∀ {e : Char}, e.isDigit → 48 ≤ e.toNat := by
    intro e he
    simp only [Char.isDigit, Bool.and_eq_true, decide_eq_true_eq, ge_iff_le, UInt32.le_iff_toNat_le] at he
    exact he.1
  have := h0 hc
  have := h0 hd
  exact Char.toNat_inj.mp (by omega)

theorem digitValue_eq_zero {c : Char} (hc : c.isDigit) : digitValue c = 0 ↔ c = '0' := by
  constructor
  · intro h
    exact digitValue_inj hc (by decide) (h.trans (by decide))
  · rintro rfl
    decide

/-! ## Natural numbers -/

@[simp] theorem digitsValue_nil : digitsValue [] = 0 := rfl

theorem foldl_digits (cs : List Char) (n : Nat) :
    cs.foldl (fun n c => 10 * n + digitValue c) n = n * 10 ^ cs.length + digitsValue cs := by
  induction cs generalizing n with
  | nil => simp [digitsValue]
  | cons c cs ih =>
    simp only [digitsValue, List.foldl_cons, List.length_cons] at ih ⊢
    rw [ih, ih (10 * 0 + digitValue c)]
    ring

theorem digitsValue_append (as bs : List Char) :
    digitsValue (as ++ bs) = digitsValue as * 10 ^ bs.length + digitsValue bs := by
  rw [digitsValue, List.foldl_append, foldl_digits bs]; rfl

theorem digitsValue_cons (c : Char) (cs : List Char) :
    digitsValue (c :: cs) = digitValue c * 10 ^ cs.length + digitsValue cs := by
  have := digitsValue_append [c] cs
  simpa [digitsValue] using this

theorem digitsValue_lt (cs : List Char) : digitsValue cs < 10 ^ cs.length := by
  induction cs with
  | nil => simp
  | cons c cs ih =>
    rw [digitsValue_cons, List.length_cons, Nat.pow_succ]
    have := digitValue_lt c
    have := Nat.mul_le_mul_right (10 ^ cs.length) (show digitValue c + 1 ≤ 10 by omega)
    rw [Nat.succ_mul] at this
    omega

@[simp] theorem digitsValue_replicate_zero (n : Nat) : digitsValue (List.replicate n '0') = 0 := by
  induction n with
  | zero => rfl
  | succ n ih => rw [List.replicate_succ, digitsValue_cons, ih]; simp [show digitValue '0' = 0 by decide]

theorem ascii_digitsOf (n : Nat) : AsciiDigits (digitsOf n) :=
  fun _ hc => Nat.isDigit_of_mem_toDigits (by decide) (by decide) hc

theorem digitsOf_ne_nil (n : Nat) : digitsOf n ≠ [] := Nat.toDigits_ne_nil

theorem digitsValue_ascii {cs : List Char} (h : AsciiDigits cs) : digitsValue cs = Nat.ofDigitChars 10 cs 0 := by
  induction cs with
  | nil => rfl
  | cons c cs ih =>
    have hc := digitValue_ascii (h c (by simp))
    have hs := ih fun d hd => h d (by simp [hd])
    rw [digitsValue_cons, Nat.ofDigitChars_cons, Nat.ofDigitChars_eq_ofDigitChars_zero, hc, hs]
    simp [Nat.mul_comm]

@[simp] theorem digitsValue_digitsOf (n : Nat) : digitsValue (digitsOf n) = n := by
  rw [digitsValue_ascii (ascii_digitsOf n)]
  exact Nat.ofDigitChars_ten_toDigits

theorem lt_pow_length_digitsOf (n : Nat) : n < 10 ^ (digitsOf n).length := by
  have := digitsValue_lt (digitsOf n)
  rwa [digitsValue_digitsOf] at this

theorem pow_length_digitsOf_le {n : Nat} (h : n ≠ 0) : 10 ^ ((digitsOf n).length - 1) ≤ n := by
  by_contra hn
  by_cases h1 : (digitsOf n).length - 1 = 0
  · rw [h1] at hn; omega
  · have := (Nat.length_toDigits_le_iff (b := 10) (by decide) (Nat.pos_of_ne_zero h1)).mpr (Nat.lt_of_not_le hn)
    have hp := List.length_pos_iff.mpr (digitsOf_ne_nil n)
    simp only [digitsOf] at *
    omega

theorem head?_digitsOf {n : Nat} (h : n ≠ 0) : (digitsOf n).head? ≠ some '0' := by
  intro hfirst
  have hpow := pow_length_digitsOf_le h
  have hvalue := digitsValue_digitsOf n
  cases hds : digitsOf n with
  | nil => exact digitsOf_ne_nil n hds
  | cons d ds =>
    rw [hds] at hfirst hvalue hpow
    obtain rfl : d = '0' := by simpa using hfirst
    rw [digitsValue_cons, show digitValue '0' = 0 by decide, Nat.zero_mul, Nat.zero_add] at hvalue
    rw [List.length_cons, Nat.add_sub_cancel] at hpow
    exact absurd (hvalue ▸ digitsValue_lt ds) (Nat.not_lt.mpr hpow)

theorem dropTrailingZeros_append (cs : List Char) :
    dropTrailingZeros cs ++ List.replicate (cs.length - (dropTrailingZeros cs).length) '0' = cs := by
  have h : dropTrailingZeros cs ++ cs.rtakeWhile (· == '0') = cs := List.rdropWhile_append_rtakeWhile
  have hz : cs.rtakeWhile (· == '0') = List.replicate (cs.rtakeWhile (· == '0')).length '0' :=
    List.eq_replicate_of_mem fun c hc => by simpa using List.mem_rtakeWhile_imp hc
  have hl := congrArg List.length h
  rw [List.length_append] at hl
  rw [show cs.length - (dropTrailingZeros cs).length = (cs.rtakeWhile (· == '0')).length by omega, ← hz, h]

theorem getLast?_dropTrailingZeros (cs : List Char) : (dropTrailingZeros cs).getLast? ≠ some '0' := by
  unfold dropTrailingZeros
  rw [List.getLast?_reverse]
  intro h
  have := List.head?_dropWhile_not (p := (· == '0')) (l := cs.reverse)
  rw [h] at this
  simp at this

/-! ## Fractions -/

def fractionValue (cs : List Char) : ℚ := digitsValue cs / 10 ^ cs.length

@[simp] theorem fractionValue_nil : fractionValue [] = 0 := by simp [fractionValue]

theorem fractionValue_cons (c : Char) (cs : List Char) :
    fractionValue (c :: cs) = (digitValue c + fractionValue cs) / 10 := by
  unfold fractionValue
  rw [digitsValue_cons, List.length_cons]
  push_cast
  field_simp
  ring

theorem fractionValue_mul_pow (ds : List Char) : fractionValue ds * 10 ^ (ds.length : Int) = digitsValue ds := by
  rw [fractionValue, zpow_natCast, div_mul_cancel₀ _ (by positivity)]

theorem fractionValue_append (as bs : List Char) :
    fractionValue (as ++ bs) = fractionValue as + fractionValue bs / 10 ^ (as.length : Int) := by
  unfold fractionValue
  rw [digitsValue_append, List.length_append, zpow_natCast]
  push_cast
  field_simp
  ring

theorem fractionValue_zeros_append (n : Nat) (ds : List Char) :
    fractionValue (List.replicate n '0' ++ ds) = fractionValue ds / 10 ^ (n : Int) := by
  rw [fractionValue_append, List.length_replicate, fractionValue, digitsValue_replicate_zero]
  simp

theorem fractionValue_nonneg (cs : List Char) : 0 ≤ fractionValue cs := by
  unfold fractionValue; positivity

theorem fractionValue_lt_one (cs : List Char) : fractionValue cs < 1 := by
  unfold fractionValue
  rw [div_lt_one (by positivity)]
  exact_mod_cast digitsValue_lt cs

theorem tail_last {c : Char} {cs : List Char} (h : (c :: cs).getLast? ≠ some '0') :
    cs.getLast? ≠ some '0' := by
  cases cs with
  | nil => simp
  | cons d ds => simpa [List.getLast?_cons_cons] using h

theorem fractionValue_eq_zero : ∀ {cs : List Char}, AsciiDigits cs → cs.getLast? ≠ some '0' →
    (fractionValue cs = 0 ↔ cs = [])
  | [], _, _ => by simp
  | c :: cs, ha, hl => by
    have ih := fractionValue_eq_zero (fun d hd => ha d (by simp [hd])) (tail_last hl)
    have h0 := fractionValue_nonneg cs
    refine ⟨fun h => ?_, fun h => absurd h (by simp)⟩
    rw [fractionValue_cons] at h
    have hc : (0 : ℚ) ≤ digitValue c := by positivity
    have h1 : digitValue c = 0 := by
      have : (digitValue c : ℚ) = 0 := by linarith
      exact_mod_cast this
    have h2 : cs = [] := ih.mp (by linarith)
    rw [(digitValue_eq_zero (ha c (by simp))).mp h1, h2] at hl
    exact absurd rfl hl

theorem digit_add_fraction_inj {a b : Nat} {x y : ℚ} (hx : 0 ≤ x) (hx1 : x < 1) (hy : 0 ≤ y) (hy1 : y < 1)
    (h : (a : ℚ) + x = b + y) : a = b ∧ x = y := by
  have hab : a = b := by
    have h1 : (a : ℚ) < b + 1 := by linarith
    have h2 : (b : ℚ) < a + 1 := by linarith
    have h1' : a < b + 1 := by exact_mod_cast h1
    have h2' : b < a + 1 := by exact_mod_cast h2
    omega
  subst hab
  exact ⟨rfl, by linarith⟩

/-- **Uniqueness.** A fraction has one run of digits without a zero at the end. -/
theorem fractionValue_inj : ∀ {as bs : List Char}, AsciiDigits as → AsciiDigits bs →
    as.getLast? ≠ some '0' → bs.getLast? ≠ some '0' → fractionValue as = fractionValue bs → as = bs
  | [], bs, _, hb, _, hl, h => by
    rw [fractionValue_nil] at h
    exact ((fractionValue_eq_zero hb hl).mp h.symm).symm
  | a :: as, [], ha, _, hl, _, h => by
    rw [fractionValue_nil] at h
    exact (fractionValue_eq_zero ha hl).mp h
  | a :: as, b :: bs, ha, hb, hla, hlb, h => by
    rw [fractionValue_cons, fractionValue_cons, div_left_inj' (by norm_num)] at h
    obtain ⟨hd, hr⟩ := digit_add_fraction_inj (fractionValue_nonneg as) (fractionValue_lt_one as)
      (fractionValue_nonneg bs) (fractionValue_lt_one bs) h
    rw [digitValue_inj (ha a (by simp)) (hb b (by simp)) hd,
      fractionValue_inj (fun c hc => ha c (by simp [hc])) (fun c hc => hb c (by simp [hc]))
        (tail_last hla) (tail_last hlb) hr]

end JossLang
