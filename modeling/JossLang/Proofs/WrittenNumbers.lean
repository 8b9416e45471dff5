import JossLang.Double.Written
import JossLang.Proofs.NearestDoubles
import JossLang.Proofs.StepNames

/-!
# Written numbers

A numeral is a sign, digits with a point among them or not, and an exponent. However digits and point are laid out, the
numeral denotes the number that they are (`denoted?_layout`), the digits of a double are those of a decimal that reads back
as this double, and so doubles written alike are the same or zeros: `written_exact`.
-/

namespace JossLang.Double

/-! ## Numerals -/

def numeralParts (cs : List Char) : List Char × List Char × List Char :=
  match cs.dropWhile isDigit with
  | '.' :: behind => (cs.takeWhile isDigit, behind.takeWhile isDigit, behind.dropWhile isDigit)
  | rest => (cs.takeWhile isDigit, [], rest)

def unsigned? (cs : List Char) : Option ℚ :=
  let (whole, fraction, rest) := numeralParts cs
  if whole = [] ∧ fraction = [] then none
  else (exponentOf? rest).map fun e => (digitsValue whole + fractionValue fraction) * 10 ^ e

/-- The number that a numeral denotes. -/
def denoted? (cs : List Char) : Option ℚ :=
  (unsigned? (splitSign cs).2).map fun q => if (splitSign cs).1 then -q else q

section
variable {ds fs rest : List Char} (hd : ∀ c ∈ ds, isDigit c) (hf : ∀ c ∈ fs, isDigit c)
  (hrest : ∀ c ∈ rest.head?, isDigit c = false)
include hd hrest

theorem takeWhile_digits : (ds ++ rest).takeWhile isDigit = ds ∧ (ds ++ rest).dropWhile isDigit = rest := by
  rw [List.takeWhile_append_of_pos hd, List.dropWhile_append_of_pos hd]
  cases rest with
  | nil => simp
  | cons c rest =>
    have hc : ¬ isDigit c = true := by simp [hrest c (by simp)]
    rw [List.takeWhile_cons_of_neg hc, List.dropWhile_cons_of_neg hc, List.append_nil]
    exact ⟨rfl, rfl⟩

theorem unsigned?_whole (hne : ds ≠ []) (hpoint : ∀ c ∈ rest.head?, c ≠ '.') :
    unsigned? (ds ++ rest) = (exponentOf? rest).map fun e => (digitsValue ds * 10 ^ e : ℚ) := by
  obtain ⟨htake, hdrop⟩ := takeWhile_digits hd hrest
  have hparts : numeralParts (ds ++ rest) = (ds, [], rest) := by
    unfold numeralParts
    rw [htake, hdrop]
    split
    · exact absurd rfl (hpoint '.' (by simp))
    · rfl
  unfold unsigned?
  rw [hparts]
  simp [hne]

include hf

theorem unsigned?_pointed (hne : ds ≠ []) : unsigned? (ds ++ '.' :: (fs ++ rest)) =
    (exponentOf? rest).map fun e => (digitsValue ds + fractionValue fs) * 10 ^ e := by
  have hpoint : ∀ c ∈ ('.' :: (fs ++ rest)).head?, isDigit c = false := by simp; decide
  obtain ⟨htake, hdrop⟩ := takeWhile_digits hd hpoint
  obtain ⟨htake', hdrop'⟩ := takeWhile_digits hf hrest
  have hparts : numeralParts (ds ++ '.' :: (fs ++ rest)) = (ds, fs, rest) := by
    unfold numeralParts
    simp only [htake, hdrop, htake', hdrop']
  unfold unsigned?
  rw [hparts]
  simp [hne]

end

theorem unsigned?_head {c : Char} {cs : List Char} {q : ℚ} (h : unsigned? (c :: cs) = some q) : isDigit c ∨ c = '.' := by
  by_contra hc
  rw [not_or] at hc
  have hparts : numeralParts (c :: cs) = ([], [], c :: cs) := by
    unfold numeralParts
    rw [List.takeWhile_cons_of_neg hc.1, List.dropWhile_cons_of_neg hc.1]
    split
    · next heq => exact absurd (List.cons.inj heq).1 hc.2
    · rfl
  unfold unsigned? at h
  rw [hparts] at h
  simp at h

theorem exponentOf?_exponentText (e : ℤ) : exponentOf? ('e' :: exponentText e) = some e := by
  have hdigits : (digitsOf e.natAbs).all isDigit = true :=
    List.all_eq_true.mpr fun c hc => isDigit_ascii (ascii_digitsOf _ c hc)
  unfold exponentOf? exponentText
  by_cases he : e ≥ 0
  · rw [if_pos he]
    simp [splitSign, hdigits, digitsOf_ne_nil, he]
  · rw [if_neg he]
    simp [splitSign, hdigits, digitsOf_ne_nil]
    rw [abs_of_neg (not_le.mp he), neg_neg]

/-! ## Layouts -/

def Digits.value (d : Digits) : ℚ := fractionValue d.digits * 10 ^ d.point

theorem isDigit_zeros (n : ℕ) : ∀ c ∈ List.replicate n '0', isDigit c := fun _ hc =>
  isDigit_ascii (SignedDecimal.ascii_replicate_zero n _ hc)

theorem head?_nil_not_digit : ∀ c ∈ ([] : List Char).head?, isDigit c = false := nofun

section
variable {ds fs : List Char} (hd : ∀ c ∈ ds, isDigit c) (hne : ds ≠ [])
include hd hne

theorem unsigned?_digits : unsigned? ds = some (digitsValue ds : ℚ) := by
  have h := unsigned?_whole hd head?_nil_not_digit hne (by simp)
  rw [List.append_nil] at h
  simpa [exponentOf?] using h

theorem unsigned?_exponent (e : ℤ) : unsigned? (ds ++ 'e' :: exponentText e) = some (digitsValue ds * 10 ^ e : ℚ) := by
  rw [unsigned?_whole hd (by simp; decide) hne (by simp), exponentOf?_exponentText]
  rfl

variable (hf : ∀ c ∈ fs, isDigit c)
include hf

theorem unsigned?_point : unsigned? (ds ++ '.' :: fs) = some (digitsValue ds + fractionValue fs) := by
  have h := unsigned?_pointed hd hf head?_nil_not_digit hne
  rw [List.append_nil] at h
  simpa [exponentOf?] using h

theorem unsigned?_point_exponent (e : ℤ) :
    unsigned? (ds ++ '.' :: (fs ++ 'e' :: exponentText e)) = some ((digitsValue ds + fractionValue fs) * 10 ^ e) := by
  rw [unsigned?_pointed hd hf (by simp; decide) hne, exponentOf?_exponentText]
  rfl

end

/-! ### The four layouts -/

section
variable {ds : List Char} (hd : ∀ c ∈ ds, isDigit c)
include hd

theorem unsigned?_zeros_behind (hne : ds ≠ []) (j : ℕ) :
    unsigned? (ds ++ List.replicate j '0') = some (fractionValue ds * 10 ^ (ds.length + j : ℤ)) := by
  rw [unsigned?_digits (List.forall_mem_append.mpr ⟨hd, isDigit_zeros j⟩) (by simp [hne]), digitsValue_append,
    digitsValue_replicate_zero, List.length_replicate, zpow_add₀ (by norm_num), ← mul_assoc, fractionValue_mul_pow]
  simp

theorem unsigned?_point_inside {j : ℕ} (hj : 0 < j) (hlt : j ≤ ds.length) :
    unsigned? (ds.take j ++ '.' :: ds.drop j) = some (fractionValue ds * 10 ^ (j : ℤ)) := by
  have hlength : (ds.take j).length = j := by rw [List.length_take, Nat.min_eq_left hlt]
  have hne : ds.take j ≠ [] := fun h0 => by rw [h0] at hlength; exact hj.ne hlength
  have hsplit := fractionValue_append (ds.take j) (ds.drop j)
  have hmul := fractionValue_mul_pow (ds.take j)
  rw [List.take_append_drop, hlength] at hsplit
  rw [hlength] at hmul
  rw [unsigned?_point (fun c hc => hd c (List.mem_of_mem_take hc)) hne (fun c hc => hd c (List.mem_of_mem_drop hc)), hsplit,
    ← hmul]
  congr 1
  field_simp

theorem unsigned?_point_before (j : ℕ) :
    unsigned? ('0' :: '.' :: List.replicate j '0' ++ ds) = some (fractionValue ds * 10 ^ (-j : ℤ)) := by
  have hzero : ∀ c ∈ ['0'], isDigit c := isDigit_zeros 1
  have h := unsigned?_point hzero (List.cons_ne_nil _ _) (List.forall_mem_append.mpr ⟨isDigit_zeros j, hd⟩)
  rw [fractionValue_zeros_append, show digitsValue ['0'] = 0 by decide, Nat.cast_zero, zero_add] at h
  rw [zpow_neg, ← div_eq_mul_inv]
  exact h

end

theorem unsigned?_scientific {c : Char} {cs : List Char} (hd : ∀ b ∈ c :: cs, isDigit b) (n : ℤ) :
    unsigned? ((if cs = [] then [c] else c :: '.' :: cs) ++ 'e' :: exponentText (n - 1)) =
      some (fractionValue (c :: cs) * 10 ^ n) := by
  obtain ⟨hc, hcs⟩ := List.forall_mem_cons.mp hd
  have hc' : ∀ b ∈ [c], isDigit b := List.forall_mem_singleton.mpr hc
  have hvalue : (digitsValue [c] + fractionValue cs) * 10 ^ (n - 1) = fractionValue (c :: cs) * 10 ^ n := by
    rw [fractionValue_cons, zpow_sub_one₀ (by norm_num), digitsValue_cons]
    simp
    ring
  by_cases hnil : cs = []
  · subst hnil
    rw [if_pos rfl, unsigned?_exponent hc' (List.cons_ne_nil _ _), ← hvalue, fractionValue_nil, add_zero]
  · rw [if_neg hnil, ← hvalue]
    exact unsigned?_point_exponent hc' (List.cons_ne_nil _ _) hcs _

theorem unsigned?_layout {d : Digits} (hne : d.digits ≠ []) (hd : ∀ c ∈ d.digits, isDigit c) :
    unsigned? d.layout = some d.value := by
  obtain ⟨ds, n⟩ := d
  unfold Digits.layout Digits.value
  dsimp only at *
  by_cases hwhole : (ds.length : ℤ) ≤ n ∧ n ≤ 21
  · obtain ⟨j, hj⟩ := Int.eq_ofNat_of_zero_le (sub_nonneg.mpr hwhole.1)
    obtain rfl : n = ds.length + (j : ℤ) := by omega
    rw [if_pos hwhole, hj, Int.toNat_natCast, unsigned?_zeros_behind hd hne]
  · rw [if_neg hwhole]
    by_cases hinside : 0 < n ∧ n ≤ 21
    · obtain ⟨j, rfl⟩ := Int.eq_ofNat_of_zero_le hinside.1.le
      rw [if_pos hinside, Int.toNat_natCast, unsigned?_point_inside hd (by omega) (by omega)]
    · rw [if_neg hinside]
      by_cases hbefore : -6 < n ∧ n ≤ 0
      · obtain ⟨j, hj⟩ := Int.eq_ofNat_of_zero_le (neg_nonneg.mpr hbefore.2)
        obtain rfl : n = -(j : ℤ) := by omega
        rw [if_pos hbefore, neg_neg, Int.toNat_natCast, unsigned?_point_before hd]
      · rw [if_neg hbefore]
        match ds with
        | [] => exact absurd rfl hne
        | [c] => exact unsigned?_scientific hd n
        | c :: b :: cs => exact unsigned?_scientific hd n

theorem denoted?_layout {d : Digits} (hne : d.digits ≠ []) (hd : ∀ c ∈ d.digits, isDigit c) (negative : Bool) :
    denoted? (signed negative d.layout) = some (if negative then -d.value else d.value) := by
  have hlayout := unsigned?_layout hne hd
  have hsign : splitSign (signed negative d.layout) = (negative, d.layout) := by
    refine splitSign_signed negative fun c hc => ?_
    cases hl : d.layout with
    | nil => rw [hl] at hc; cases hc
    | cons b bs =>
      rw [hl] at hlayout hc
      obtain rfl : b = c := Option.some.inj hc
      exact unsigned?_head hlayout
  rw [denoted?, hsign, hlayout]
  rfl

/-! ## Digits of a decimal -/

structure Digits.Normal (d : Digits) : Prop where
  ne_nil : d.digits ≠ []
  ascii : AsciiDigits d.digits
  first : d.digits.head? ≠ some '0'
  last : d.digits.getLast? ≠ some '0'

def Decimal.value (d : Decimal) : ℚ := d.coefficient * 10 ^ d.power

section
variable {d : Decimal} (h : d.coefficient ≠ 0)
include h

theorem dropTrailingZeros_ne_nil : dropTrailingZeros (digitsOf d.coefficient) ≠ [] := by
  intro hnil
  have hcat := dropTrailingZeros_append (digitsOf d.coefficient)
  have hvalue := digitsValue_digitsOf d.coefficient
  rw [← hcat, hnil, List.nil_append, digitsValue_replicate_zero] at hvalue
  exact h hvalue.symm

theorem digits_normalDigits : d.normalDigits.digits = dropTrailingZeros (digitsOf d.coefficient) := by
  unfold Decimal.normalDigits
  dsimp only
  rw [if_neg (by simpa using dropTrailingZeros_ne_nil h)]

theorem normal_normalDigits : d.normalDigits.Normal := by
  have hcat := dropTrailingZeros_append (digitsOf d.coefficient)
  have hne := dropTrailingZeros_ne_nil h
  have hdigits := digits_normalDigits h
  refine ⟨?_, ?_, ?_, ?_⟩
  · rwa [hdigits]
  · rw [hdigits]
    exact SignedDecimal.ascii_dropTrailingZeros (ascii_digitsOf _)
  · have hfirst := head?_digitsOf h
    rwa [← hcat, List.head?_append_of_ne_nil _ hne, ← hdigits] at hfirst
  · rw [hdigits]
    exact getLast?_dropTrailingZeros _

/-- Zeros at the end are dropped, but the point is placed from the digits with them. -/
theorem value_normalDigits : d.normalDigits.value = d.value := by
  have hcat := dropTrailingZeros_append (digitsOf d.coefficient)
  have hpoint : d.normalDigits.point = (digitsOf d.coefficient).length + d.power := rfl
  have hdropped : fractionValue (dropTrailingZeros (digitsOf d.coefficient)) = fractionValue (digitsOf d.coefficient) := by
    conv_rhs => rw [← hcat, fractionValue_append]
    rw [fractionValue, fractionValue, digitsValue_replicate_zero]
    simp
  rw [Digits.value, digits_normalDigits h, hdropped, hpoint, zpow_add₀ (by norm_num), ← mul_assoc, fractionValue_mul_pow,
    digitsValue_digitsOf, Decimal.value]

end

/-! ## Shortest decimals -/

theorem zpow_mul_pow_toNat {x : ℚ} (hx : x ≠ 0) (p : ℤ) : x ^ p * x ^ (-p).toNat = x ^ p.toNat := by
  rw [← zpow_natCast, ← zpow_natCast, ← zpow_add₀ hx]
  congr 1
  omega

theorem compareDecimal_eq (c : ℕ) (p : ℤ) (b : ℕ) (e : ℤ) :
    compareDecimal c p b e = compare (c * 10 ^ p : ℚ) (b * 2 ^ e) := by
  let k : ℚ := 10 ^ (-p).toNat * 2 ^ (-e).toNat
  have hk : 0 < k := by positivity
  have hmono : StrictMono fun n : ℕ => (n : ℚ) / k := fun m n h => div_lt_div_of_pos_right (by exact_mod_cast h) hk
  have hleft : ((c * 10 ^ p.toNat * 2 ^ (-e).toNat : ℕ) : ℚ) / k = c * 10 ^ p := by
    rw [div_eq_iff hk.ne']
    push_cast
    rw [← zpow_mul_pow_toNat (by norm_num : (10 : ℚ) ≠ 0) p]
    ring
  have hright : ((b * 2 ^ e.toNat * 10 ^ (-p).toNat : ℕ) : ℚ) / k = b * 2 ^ e := by
    rw [div_eq_iff hk.ne']
    push_cast
    rw [← zpow_mul_pow_toNat (by norm_num : (2 : ℚ) ≠ 0) e]
    ring
  rw [← hleft, ← hright, ← cmp_eq_compare, hmono.cmp_map_eq, cmp_eq_compare]
  rfl

theorem quarters_eq (k : ℕ) (e : ℤ) : (k * 2 ^ (e - 2) : ℚ) = k / 4 * 2 ^ e := by
  rw [zpow_sub₀ (by norm_num)]
  norm_num
  ring

theorem roundsTo_of_readsBack {a : Magnitude} (hm : 0 < a.mantissa) {c : ℕ} {p : ℤ} (h : readsBack a c p = true) :
    RoundsTo a (c * 10 ^ p) := by
  let below : ℕ := if a.mantissa = 2 ^ 52 ∧ a.exponent > -1074 then 1 else 2
  -- the ends of the interval are counted in quarters of the last place, so that both are whole
  have hlow : ((4 * a.mantissa - below : ℕ) * 2 ^ (a.exponent - 2) : ℚ) = (a.mantissa - halfBelow a) * 2 ^ a.exponent := by
    have hle : below ≤ 4 * a.mantissa := by
      have : below ≤ 2 := by
        show (if _ then 1 else 2) ≤ 2
        split <;> omega
      omega
    have hbelow : (below : ℚ) / 4 = halfBelow a := by
      show ((if _ then 1 else 2 : ℕ) : ℚ) / 4 = if _ then 1 / 4 else 1 / 2
      split <;> norm_num
    rw [quarters_eq, Nat.cast_sub hle, sub_div, hbelow]
    push_cast
    congr 2
    ring
  have hhigh : ((4 * a.mantissa + 2 : ℕ) * 2 ^ (a.exponent - 2) : ℚ) = (a.mantissa + 1 / 2) * 2 ^ a.exponent := by
    rw [quarters_eq]
    push_cast
    congr 1
    ring
  have hread : readsBack a c p =
      ((compareDecimal c p (4 * a.mantissa - below) (a.exponent - 2) == .gt || (decide (a.mantissa % 2 = 0) &&
          compareDecimal c p (4 * a.mantissa - below) (a.exponent - 2) == .eq)) &&
        (compareDecimal c p (4 * a.mantissa + 2) (a.exponent - 2) == .lt || (decide (a.mantissa % 2 = 0) &&
          compareDecimal c p (4 * a.mantissa + 2) (a.exponent - 2) == .eq))) := rfl
  rw [hread, compareDecimal_eq, compareDecimal_eq, hlow, hhigh] at h
  simp only [Bool.and_eq_true, Bool.or_eq_true, beq_iff_eq, decide_eq_true_eq, compare_gt_iff_gt, compare_lt_iff_lt,
    compare_eq_iff_eq] at h
  obtain ⟨hl, hh⟩ := h
  refine ⟨?_, ?_, fun hodd => ⟨?_, ?_⟩⟩
  · exact hl.elim le_of_lt fun he => he.2.ge
  · exact hh.elim le_of_lt fun he => he.2.le
  · exact hl.resolve_right fun he => by omega
  · exact hh.resolve_right fun he => by omega

theorem roundsTo_self (a : Magnitude) : RoundsTo a (a.mantissa * 2 ^ a.exponent) := by
  have hbelow : 0 < halfBelow a := by
    unfold halfBelow
    split <;> norm_num
  have hpos : (0 : ℚ) < 2 ^ a.exponent := by positivity
  have hlow : (a.mantissa - halfBelow a) * 2 ^ a.exponent < a.mantissa * 2 ^ a.exponent :=
    mul_lt_mul_of_pos_right (by linarith) hpos
  have hhigh : (a.mantissa * 2 ^ a.exponent : ℚ) < (a.mantissa + 1 / 2) * 2 ^ a.exponent :=
    mul_lt_mul_of_pos_right (by linarith) hpos
  exact ⟨hlow.le, hhigh.le, fun _ => ⟨hlow, hhigh⟩⟩

theorem decimalAt?_roundsTo {a : Magnitude} (hm : 0 < a.mantissa) {p : ℤ} {d : Decimal} (h : decimalAt? a p = some d) :
    RoundsTo a d.value := by
  unfold decimalAt? at h
  dsimp only at h
  split at h
  · next hlow hhigh =>
    cases h
    rw [Decimal.value]
    split
    · exact roundsTo_of_readsBack hm hlow
    · exact roundsTo_of_readsBack hm hhigh
  · next hlow _ =>
    cases h
    exact roundsTo_of_readsBack hm hlow
  · next _ hhigh =>
    cases h
    exact roundsTo_of_readsBack hm hhigh
  · cases h

/-- A binary number is a decimal, since powers of two divide those of ten. -/
theorem value_exactDecimal (m : ℕ) (e : ℤ) :
    (Decimal.mk (m * Nat.pow 2 e.toNat * Nat.pow 5 (-e).toNat) (min e 0)).value = m * 2 ^ e := by
  unfold Decimal.value
  simp only [Nat.pow_eq]
  push_cast
  by_cases he : 0 ≤ e
  · obtain ⟨n, rfl⟩ := Int.eq_ofNat_of_zero_le he
    simp
  · obtain ⟨n, hn⟩ := Int.eq_ofNat_of_zero_le (show 0 ≤ -e by omega)
    obtain rfl : e = -(n : ℤ) := by omega
    have hten : (10 : ℚ) ^ n = 2 ^ n * 5 ^ n := by rw [← mul_pow]; norm_num
    rw [min_eq_left (by omega), neg_neg, Int.toNat_natCast, show (-(n : ℤ)).toNat = 0 by omega, zpow_neg, zpow_neg,
      zpow_natCast, zpow_natCast, hten]
    field_simp

theorem shortestFrom_roundsTo {a : Magnitude} (hm : 0 < a.mantissa) (lead : ℤ) (tries digits : ℕ) :
    RoundsTo a (shortestFrom a lead tries digits).value := by
  induction tries generalizing digits with
  | zero =>
    rw [shortestFrom, value_exactDecimal]
    exact roundsTo_self a
  | succ n ih =>
    rw [shortestFrom]
    cases hd : decimalAt? a (lead + 1 - digits) with
    | none => exact ih _
    | some d => exact decimalAt?_roundsTo hm hd

theorem shortest_roundsTo {a : Magnitude} (hm : 0 < a.mantissa) : RoundsTo a (shortest a).value :=
  shortestFrom_roundsTo hm _ _ _

/-! ## Written doubles -/

def readDouble? (cs : List Char) : Option Float :=
  (denoted? cs).map fun q => nearest (q < 0) q.num.natAbs q.den

theorem natAbs_num_div_den (q : ℚ) : (q.num.natAbs / q.den : ℚ) = |q| := by
  rw [Nat.cast_natAbs, Int.cast_abs]
  conv_rhs => rw [← Rat.num_div_den q, abs_div, Nat.abs_cast]

theorem not_special {x : Float} (h : x.isFinite = true) : x.isNaN = false ∧ x.isInf = false := by
  have hfinite : x.toModel.unpack.isFinite = true := h
  show x.toModel.unpack.isNaN = false ∧ x.toModel.unpack.isInf = false
  cases hu : x.toModel.unpack with
  | finite | zero => exact ⟨rfl, rfl⟩
  | infinity | notANumber =>
    rw [hu] at hfinite
    cases hfinite

theorem written_of_value_eq_zero {x : Float} (h : x.isFinite = true) (h0 : value x = 0) : written x = "0" := by
  obtain ⟨hnan, hinf⟩ := not_special h
  rcases unpack_eq x h with ⟨hu, -⟩ | ⟨m, e, hm, -, hmagnitude, hc, -⟩
  · have hzero : (x == 0) = true := (beq_iff_numberOf x 0).mpr ⟨hnan, by rw [numberOf, hu]; rfl⟩
    rw [written, hnan, hinf, hzero]
    rfl
  · rw [value, hmagnitude] at h0
    rcases mul_eq_zero.mp h0 with hsign | hzero
    · split at hsign <;> norm_num at hsign
    · exact absurd hzero hc.value_pos.ne'

section
variable {x : Float} (h : x.isFinite = true) (h0 : value x ≠ 0)
include h h0

theorem toList_written : (written x).toList = signed (isNegative x) (shortestDigits x).layout := by
  rcases unpack_eq x h with ⟨-, hm⟩ | ⟨m, e, hm, hu, -⟩
  · rw [value, hm] at h0
    simp at h0
  · obtain ⟨hnan, hinf⟩ := not_special h
    have hzero : (x == 0) = false := by
      rw [Bool.eq_false_iff]
      intro he
      have hnumbers := ((beq_iff_numberOf x 0).mp he).2
      rw [numberOf, hu] at hnumbers
      cases hnumbers
    rw [written, hnan, hinf, hzero]
    exact String.toList_ofList

theorem shortest_value_pos : 0 < (shortest (magnitude x)).value :=
  (shortest_roundsTo (canonical_magnitude h h0).pos).pos (canonical_magnitude h h0)

theorem coefficient_shortest_ne_zero : (shortest (magnitude x)).coefficient ≠ 0 := by
  intro hc
  have hpos := shortest_value_pos h h0
  rw [Decimal.value, hc] at hpos
  simp at hpos

theorem denoted?_written : denoted? (written x).toList =
    some (if isNegative x then -(shortest (magnitude x)).value else (shortest (magnitude x)).value) := by
  have hc := coefficient_shortest_ne_zero h h0
  have hn := normal_normalDigits hc
  rw [toList_written h h0, ← value_normalDigits hc]
  exact denoted?_layout hn.ne_nil (fun c hc => isDigit_ascii (hn.ascii c hc)) (isNegative x)

theorem readDouble?_written : readDouble? (written x).toList = some x := by
  have hpos := shortest_value_pos h h0
  have hround := shortest_roundsTo (canonical_magnitude h h0).pos
  generalize hq : (if isNegative x then -(shortest (magnitude x)).value else (shortest (magnitude x)).value) = q
  have hsign : decide (q < 0) = isNegative x := by
    rw [← hq]
    cases isNegative x with
    | true => simpa using hpos
    | false => simpa using hpos.le
  have habs : |q| = (shortest (magnitude x)).value := by
    rw [← hq]
    split
    · rw [abs_neg, abs_of_pos hpos]
    · rw [abs_of_pos hpos]
  rw [readDouble?, denoted?_written h h0, hq, Option.map_some, hsign]
  rw [← habs, ← natAbs_num_div_den] at hround
  rw [nearest_eq h h0 q.den_pos hround]

theorem written_ne_zero : written x ≠ "0" := by
  intro hw
  have hpos := shortest_value_pos h h0
  have hread := denoted?_written h h0
  rw [hw, show denoted? "0".toList = some 0 by decide +kernel, Option.some.injEq] at hread
  split at hread
  · linarith
  · linarith

end

/-- Doubles that are written alike are the same, or both are zeros. -/
theorem eq_of_written_eq {x y : Float} (hx : x.isFinite = true) (hy : y.isFinite = true) (h : written x = written y) :
    x = y ∨ value x = 0 ∧ value y = 0 := by
  by_cases hx0 : value x = 0
  · refine .inr ⟨hx0, ?_⟩
    by_contra hy0
    exact written_ne_zero hy hy0 (h ▸ written_of_value_eq_zero hx hx0)
  · by_cases hy0 : value y = 0
    · exact absurd (h.trans (written_of_value_eq_zero hy hy0)) (written_ne_zero hx hx0)
    · have hread := readDouble?_written hx hx0
      rw [h, readDouble?_written hy hy0, Option.some.injEq] at hread
      exact .inl hread.symm

/-- **Exact numerals.** Digits and a point are laid out as a numeral of just their number, for a double these are digits
of its shortest decimal, and reading back what is written gives the double again. -/
theorem written_exact :
    (∀ (negative : Bool) (d : Digits), d.digits ≠ [] → (∀ c ∈ d.digits, isDigit c) →
      denoted? (signed negative d.layout) = some (if negative then -d.value else d.value)) ∧
    (∀ x : Float, x.isFinite = true → value x ≠ 0 →
      (shortestDigits x).Normal ∧ (shortestDigits x).value = (shortest (magnitude x)).value ∧
      (written x).toList = signed (isNegative x) (shortestDigits x).layout ∧ readDouble? (written x).toList = some x) ∧
    ∀ x y : Float, x.isFinite = true → y.isFinite = true → written x = written y → x = y ∨ value x = 0 ∧ value y = 0 :=
  ⟨fun negative _ hne hd => denoted?_layout hne hd negative, fun _ h h0 =>
    ⟨normal_normalDigits (coefficient_shortest_ne_zero h h0), value_normalDigits (coefficient_shortest_ne_zero h h0),
      toList_written h h0, readDouble?_written h h0⟩, fun _ _ => eq_of_written_eq⟩

/-- A number in the layout with an exponent, a double that is written so, and the two zeros. -/
theorem written_exact_at_small :
    denoted? (signed true (Digits.layout ⟨['2', '5'], -6⟩)) = some (-25 / 10 ^ 8) ∧
    readDouble? (written (Float.ofBits 0xbe90c6f7a0b5ed8d)).toList = some (Float.ofBits 0xbe90c6f7a0b5ed8d) ∧
    (zero false = zero true ∨ value (zero false) = 0 ∧ value (zero true) = 0) := by
  obtain ⟨hlayout, hdouble, heq⟩ := written_exact
  refine ⟨?_, (hdouble _ (by decide +kernel) (by decide +kernel)).2.2.2,
    heq _ _ (by decide +kernel) (by decide +kernel) (by decide +kernel)⟩
  rw [hlayout true ⟨['2', '5'], -6⟩ (by decide) (List.all_eq_true.mp (by decide))]
  decide +kernel

end JossLang.Double
