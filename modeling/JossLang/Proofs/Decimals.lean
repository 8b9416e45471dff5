import JossLang.Proofs.Digits
import JossLang.StepNumber

/-!
# Decimals: value, rounding, and the two runs of digits

A decimal has a value, and `rounded` takes it to a value that can be kept: at
most 28 significant digits, none behind the last place. Values that can be kept
stay as they are, and whole ones stay whole. The digits on both sides of the
point give the value back.
-/

namespace JossLang

/-! ## Rounding a quotient -/

theorem roundHalfEven_of_dvd {n m : Nat} (hm : 0 < m) (h : m ∣ n) : roundHalfEven n m = n / m := by
  unfold roundHalfEven
  simp [Nat.mod_eq_zero_of_dvd h, hm]

theorem roundHalfEven_le (n m : Nat) : roundHalfEven n m ≤ n / m + 1 := by
  unfold roundHalfEven
  dsimp only
  split
  · omega
  · split
    · omega
    · split <;> omega

theorem dropDigits_eq (c k : Nat) :
    dropDigits c k = if (digitsOf c).length < k then 0 else roundHalfEven c (10 ^ k) := rfl

theorem dropDigits_of_dvd {c k : Nat} (h : 10 ^ k ∣ c) : dropDigits c k * 10 ^ k = c := by
  rw [dropDigits_eq]
  split
  · next hl =>
    have h1 := lt_pow_length_digitsOf c
    have h2 : 10 ^ (digitsOf c).length ≤ 10 ^ k := Nat.pow_le_pow_right (by decide) (Nat.le_of_lt hl)
    rw [Nat.eq_zero_of_dvd_of_lt h (by omega), Nat.zero_mul]
  · rw [roundHalfEven_of_dvd (Nat.pow_pos (by decide)) h, Nat.div_mul_cancel h]

theorem dropDigits_le {c k n : Nat} (h : (digitsOf c).length ≤ k + n) : dropDigits c k ≤ 10 ^ n := by
  rw [dropDigits_eq]
  split
  · exact Nat.zero_le _
  · refine Nat.le_trans (roundHalfEven_le _ _) ?_
    have h1 := lt_pow_length_digitsOf c
    have h2 : 10 ^ (digitsOf c).length ≤ 10 ^ (k + n) := Nat.pow_le_pow_right (by decide) h
    refine Nat.succ_le_of_lt ((Nat.div_lt_iff_lt_mul (Nat.pow_pos (by decide))).mpr ?_)
    rw [← Nat.pow_add, Nat.add_comm]
    omega

/-! ## Values -/

namespace SignedDecimal

def magnitude (d : SignedDecimal) : ℚ := d.coefficient * 10 ^ d.power

theorem magnitude_nonneg (d : SignedDecimal) : 0 ≤ d.magnitude := by
  unfold magnitude; positivity

def dropped (d : SignedDecimal) : Nat :=
  (max ((digitsOf d.coefficient).length - significantDigits : Int) (lastPlace - d.power)).toNat

theorem rounded_eq (d : SignedDecimal) :
    d.rounded = if d.dropped = 0 then d
      else ⟨d.negative, dropDigits d.coefficient d.dropped, d.power + d.dropped⟩ := rfl

theorem length_le_dropped (d : SignedDecimal) : (digitsOf d.coefficient).length ≤ d.dropped + significantDigits := by
  unfold dropped; omega

theorem lastPlace_le (d : SignedDecimal) : lastPlace ≤ d.power + d.dropped := by
  unfold dropped; omega

theorem dropped_cases (d : SignedDecimal) : d.dropped = 0 ∨
    ((d.dropped : Int) = (digitsOf d.coefficient).length - significantDigits ∧
      (digitsOf d.coefficient).length = d.dropped + significantDigits) ∨
    (d.dropped : Int) = lastPlace - d.power := by
  unfold dropped; omega

theorem lastPlace_le_rounded (d : SignedDecimal) : lastPlace ≤ d.rounded.power := by
  have := lastPlace_le d
  rw [rounded_eq]
  split
  · next h => rw [h] at this; simpa using this
  · exact this

theorem magnitude_rounded_of_dvd {d : SignedDecimal} (h : 10 ^ d.dropped ∣ d.coefficient) :
    d.rounded.magnitude = d.magnitude := by
  rw [rounded_eq]
  split
  · rfl
  · have hc : (dropDigits d.coefficient d.dropped : ℚ) * 10 ^ d.dropped = d.coefficient := by
      exact_mod_cast dropDigits_of_dvd h
    unfold magnitude
    dsimp only
    rw [zpow_add₀ (by norm_num), zpow_natCast, ← hc]
    ring

/-- Values with at most 28 significant digits, none of them behind the last place. -/
def Kept (v : ℚ) : Prop := ∃ c : Nat, ∃ p : Int, c < 10 ^ significantDigits ∧ lastPlace ≤ p ∧ v = c * 10 ^ p

theorem kept_rounded (d : SignedDecimal) : Kept d.rounded.magnitude := by
  rw [rounded_eq]
  have hl := length_le_dropped d
  have hp := lastPlace_le d
  split
  · next h =>
    rw [h] at hl hp
    refine ⟨d.coefficient, d.power, ?_, by omega, rfl⟩
    exact Nat.lt_of_lt_of_le (lt_pow_length_digitsOf _) (Nat.pow_le_pow_right (by decide) (by omega))
  · rcases Nat.lt_or_eq_of_le (dropDigits_le hl) with hc | hc
    · exact ⟨_, _, hc, hp, rfl⟩
    · -- a carry through all digits leaves a one with zeros behind it
      refine ⟨10 ^ (significantDigits - 1), d.power + d.dropped + 1, by decide, by omega, ?_⟩
      unfold magnitude
      dsimp only
      rw [hc, zpow_add_one₀ (by norm_num)]
      simp only [significantDigits]
      push_cast
      ring

theorem dvd_coefficient {d : SignedDecimal} {c : Nat} {p : Int} (h : d.magnitude = c * 10 ^ p)
    (hp : d.power + d.dropped ≤ p) : 10 ^ d.dropped ∣ d.coefficient := by
  obtain ⟨n, hn⟩ := Int.le.dest hp
  refine ⟨c * 10 ^ n, ?_⟩
  have hz : (10 : ℚ) ^ d.power ≠ 0 := zpow_ne_zero _ (by norm_num)
  have : (d.coefficient : ℚ) * 10 ^ d.power = (10 ^ d.dropped * (c * 10 ^ n) : Nat) * 10 ^ d.power := by
    rw [← hn, zpow_add₀ (by norm_num), zpow_add₀ (by norm_num), zpow_natCast, zpow_natCast] at h
    unfold magnitude at h
    rw [h]
    push_cast
    ring
  exact_mod_cast mul_right_cancel₀ hz this

theorem rounded_of_kept {d : SignedDecimal} (h : Kept d.magnitude) : d.rounded.magnitude = d.magnitude := by
  obtain ⟨c, p, hc, hp, hv⟩ := h
  by_cases h0 : d.coefficient = 0
  · exact magnitude_rounded_of_dvd (by rw [h0]; exact Nat.dvd_zero _)
  rcases dropped_cases d with hd | ⟨-, hd⟩ | hd
  · exact magnitude_rounded_of_dvd (by rw [hd]; exact Nat.one_dvd _)
  · by_cases hle : d.power + d.dropped ≤ p
    · exact magnitude_rounded_of_dvd (dvd_coefficient hv hle)
    · -- then the value has more significant digits than `c`
      exfalso
      obtain ⟨n, hn⟩ := Int.le.dest (show p ≤ d.power + d.dropped - 1 by omega)
      have hlow := pow_length_digitsOf_le h0
      have hq : (c : ℚ) = (d.coefficient * 10 ^ (d.power - p) : ℚ) := by
        have hz : (10 : ℚ) ^ p ≠ 0 := zpow_ne_zero _ (by norm_num)
        rw [zpow_sub₀ (by norm_num)]
        unfold magnitude at hv
        field_simp
        linarith
      have hlow' : ((10 : ℚ) ^ ((digitsOf d.coefficient).length - 1 : Nat)) ≤ d.coefficient := by
        exact_mod_cast hlow
      have hle' : ((10 : ℚ) ^ (significantDigits : Nat)) ≤ c := by
        rw [hq]
        calc (10 : ℚ) ^ (significantDigits : Nat)
            ≤ 10 ^ ((((digitsOf d.coefficient).length - 1 : Nat) : Int) + (d.power - p)) := by
              rw [← zpow_natCast]
              exact zpow_le_zpow_right₀ (by norm_num) (by simp only [significantDigits] at *; omega)
          _ = 10 ^ ((digitsOf d.coefficient).length - 1 : Nat) * 10 ^ (d.power - p) := by
              rw [zpow_add₀ (by norm_num), zpow_natCast]
          _ ≤ d.coefficient * 10 ^ (d.power - p) := by
              exact mul_le_mul_of_nonneg_right hlow' (by positivity)
      have : 10 ^ significantDigits ≤ c := by exact_mod_cast hle'
      omega
  · exact magnitude_rounded_of_dvd (dvd_coefficient hv (by omega))

end SignedDecimal

def IsWhole (v : ℚ) : Prop := ∃ n : Nat, v = n

namespace SignedDecimal

theorem isWhole_rounded {d : SignedDecimal} (h : IsWhole d.magnitude) : IsWhole d.rounded.magnitude := by
  obtain ⟨n, hn⟩ := h
  by_cases hp : d.power + d.dropped ≤ 0
  · refine ⟨n, ?_⟩
    rw [magnitude_rounded_of_dvd (dvd_coefficient (c := n) (p := 0) (by simp [hn]) hp), hn]
  · rw [rounded_eq]
    split
    · exact ⟨n, hn⟩
    · obtain ⟨k, hk⟩ := Int.eq_ofNat_of_zero_le (show 0 ≤ d.power + d.dropped by omega)
      refine ⟨dropDigits d.coefficient d.dropped * 10 ^ k, ?_⟩
      unfold magnitude
      dsimp only
      rw [hk, zpow_natCast]
      push_cast
      rfl

/-! ## The digits on both sides of the point -/

theorem positional_value (d : SignedDecimal) :
    (digitsValue d.positional.1 : ℚ) + fractionValue d.positional.2 = d.magnitude := by
  have hcat := dropTrailingZeros_append (digitsOf d.coefficient)
  have hc : (d.coefficient : ℚ) = digitsValue (dropTrailingZeros (digitsOf d.coefficient)) *
      10 ^ ((digitsOf d.coefficient).length - (dropTrailingZeros (digitsOf d.coefficient)).length) := by
    have := digitsValue_digitsOf d.coefficient
    rw [← hcat, digitsValue_append, digitsValue_replicate_zero, List.length_replicate] at this
    exact_mod_cast this.symm
  unfold positional magnitude
  dsimp only
  rw [hc]
  generalize hkept : dropTrailingZeros (digitsOf d.coefficient) = kept at *
  generalize (digitsOf d.coefficient).length - kept.length = zeros at *
  split
  · next h => subst h; simp [show digitsValue ['0'] = 0 by decide]
  · split
    · next h0 hb =>
      -- the point stands behind all digits
      obtain ⟨k, hk⟩ := Int.eq_ofNat_of_zero_le (show 0 ≤ d.power + zeros by omega)
      rw [digitsValue_append, digitsValue_replicate_zero, List.length_replicate, fractionValue_nil,
        show (- -(d.power + (zeros : Int))).toNat = k by omega, mul_assoc, ← zpow_natCast, ← zpow_add₀ (by norm_num),
        show (zeros : Int) + d.power = k by omega, zpow_natCast]
      push_cast
      ring
    · next h0 hb =>
      obtain ⟨k, hk⟩ := Int.eq_ofNat_of_zero_le (show 0 ≤ -(d.power + zeros) by omega)
      have hp : (digitsValue kept : ℚ) * 10 ^ zeros * 10 ^ d.power = digitsValue kept / 10 ^ k := by
        rw [mul_assoc, ← zpow_natCast, ← zpow_add₀ (by norm_num), show (zeros : Int) + d.power = -(k : Int) by omega,
          zpow_neg, zpow_natCast]
        rfl
      rw [hp, show (-(d.power + (zeros : Int))).toNat = k by omega]
      split
      · next hl =>
        -- the point stands before all digits
        rw [show digitsValue ['0'] = 0 by decide, fractionValue, digitsValue_append, digitsValue_replicate_zero,
          List.length_append, List.length_replicate, show k - kept.length + kept.length = k by omega]
        simp
      · next hl =>
        -- the point stands between two digits
        have hsplit := digitsValue_append (kept.take (kept.length - k)) (kept.drop (kept.length - k))
        rw [List.take_append_drop, List.length_drop, show kept.length - (kept.length - k) = k by omega] at hsplit
        rw [fractionValue, List.length_drop, show kept.length - (kept.length - k) = k by omega, hsplit]
        push_cast
        field_simp

theorem ascii_dropTrailingZeros {cs : List Char} (h : AsciiDigits cs) : AsciiDigits (dropTrailingZeros cs) := by
  intro c hc
  refine h c ?_
  rw [← dropTrailingZeros_append cs]
  exact List.mem_append_left _ hc

theorem ascii_replicate_zero (n : Nat) : AsciiDigits (List.replicate n '0') := by
  intro c hc
  rw [(List.mem_replicate.mp hc).2]
  decide

theorem positional_fraction (d : SignedDecimal) :
    AsciiDigits d.positional.2 ∧ d.positional.2.getLast? ≠ some '0' := by
  have ha := ascii_dropTrailingZeros (ascii_digitsOf d.coefficient)
  have hl := getLast?_dropTrailingZeros (digitsOf d.coefficient)
  unfold positional
  dsimp only
  generalize dropTrailingZeros (digitsOf d.coefficient) = kept at *
  split
  · exact ⟨fun _ h => absurd h (by simp), by simp⟩
  · next hne =>
    split
    · exact ⟨fun _ h => absurd h (by simp), by simp⟩
    · split
      · refine ⟨fun c hc => ?_, ?_⟩
        · rcases List.mem_append.mp hc with h | h
          · exact ascii_replicate_zero _ c h
          · exact ha c h
        · rw [List.getLast?_append_of_ne_nil _ hne]; exact hl
      · next hb hlen =>
        refine ⟨fun c hc => ha c (List.mem_of_mem_drop hc), ?_⟩
        rw [List.getLast?_drop, if_neg (by omega)]
        exact hl

theorem isWhole_iff (d : SignedDecimal) : IsWhole d.magnitude ↔ d.positional.2 = [] := by
  obtain ⟨ha, hl⟩ := d.positional_fraction
  rw [← d.positional_value]
  constructor
  · rintro ⟨n, hn⟩
    have := (digit_add_fraction_inj (fractionValue_nonneg _) (fractionValue_lt_one _) (le_refl 0) one_pos
      (hn.trans (add_zero (n : ℚ)).symm)).2
    exact (fractionValue_eq_zero ha hl).mp this
  · intro h
    exact ⟨_, by rw [h, fractionValue_nil, add_zero]⟩

theorem length_positional_fraction (d : SignedDecimal) : d.positional.2.length ≤ (-d.power).toNat := by
  unfold positional
  dsimp only
  split
  · simp
  · split
    · simp
    · split
      · rw [List.length_append, List.length_replicate]; omega
      · rw [List.length_drop]; omega

theorem length_rounded_fraction (d : SignedDecimal) : d.rounded.positional.2.length ≤ 1000026 := by
  have h1 := d.rounded.length_positional_fraction
  have h2 := d.lastPlace_le_rounded
  unfold lastPlace at h2
  omega

end SignedDecimal

end JossLang
