import JossLang.Text.Blank
import JossLang.Text.Digit
import JossLang.Text.WordChar
import Mathlib

/-!
# Classes of characters

Blanks, digits and the letters that start a name have no character in common,
over all of Unicode.
-/

namespace JossLang

theorem digitZero_of_isDigit {c : Char} (h : isDigit c) : ∃ z ∈ digitZeros, z ≤ c.toNat ∧ c.toNat < z + 10 := by
  unfold isDigit digitValue? at h
  obtain ⟨d, hd⟩ := Option.isSome_iff_exists.mp h
  obtain ⟨z, hz, hc⟩ := List.exists_of_findSome?_eq_some hd
  split at hc
  · next hr => exact ⟨z, hz, hr⟩
  · cases hc

theorem not_blank_of_isDigit {c : Char} (h : isDigit c) : isBlank c = false := by
  obtain ⟨z, hz, hlow, hup⟩ := digitZero_of_isDigit h
  have hall : ∀ z ∈ digitZeros, ∀ r ∈ blankRanges, z + 9 < r.1 ∨ r.2 < z := by decide
  cases hb : isBlank c with
  | false => rfl
  | true =>
    obtain ⟨r, hr, h1, h2⟩ := inRanges_iff.mp hb
    have := hall z hz r hr
    omega

theorem toNat_of_isNameStart {c : Char} (h : isNameStart c) :
    (65 ≤ c.toNat ∧ c.toNat ≤ 90) ∨ (97 ≤ c.toNat ∧ c.toNat ≤ 122) := by
  simpa [isNameStart, Char.isAlpha, Char.isUpper, Char.isLower, UInt32.le_iff_toNat_le] using h

theorem not_blank_of_isNameStart {c : Char} (h : isNameStart c) : isBlank c = false := by
  have hc := toNat_of_isNameStart h
  have hall : ∀ r ∈ blankRanges, r.2 < 65 ∨ 122 < r.1 := by decide
  cases hb : isBlank c with
  | false => rfl
  | true =>
    obtain ⟨r, hr, h1, h2⟩ := inRanges_iff.mp hb
    have := hall r hr
    omega

theorem not_nameStart_of_isDigit {c : Char} (h : isDigit c) : isNameStart c = false := by
  obtain ⟨z, hz, hlow, hup⟩ := digitZero_of_isDigit h
  have hall : ∀ z ∈ digitZeros, z + 9 < 65 ∨ 122 < z := by decide
  cases hn : isNameStart c with
  | false => rfl
  | true =>
    have := toNat_of_isNameStart hn
    have := hall z hz
    omega

theorem ne_of_isDigit {c d : Char} (h : isDigit c) (hd : isDigit d = false) : c ≠ d := by
  rintro rfl
  rw [h] at hd
  cases hd

/-! ## Trimming -/

theorem trimStart_eq {cs : List Char} (h : ∀ c ∈ cs.head?, isBlank c = false) : trimStart cs = cs := by
  cases cs with
  | nil => rfl
  | cons c cs => simp [trimStart, h c (by simp)]

theorem trimEnd_eq {cs : List Char} (h : ∀ c ∈ cs.getLast?, isBlank c = false) : trimEnd cs = cs := by
  have : trimStart cs.reverse = cs.reverse := trimStart_eq (by simpa using h)
  unfold trimStart at this
  rw [trimEnd, this, List.reverse_reverse]

theorem trim_eq {cs : List Char} (h : ∀ c ∈ cs.head?, isBlank c = false) (h' : ∀ c ∈ cs.getLast?, isBlank c = false) :
    trim cs = cs := by
  rw [trim, trimStart_eq h, trimEnd_eq h']

theorem mem_of_mem_trim {cs : List Char} {c : Char} (h : c ∈ trim cs) : c ∈ cs := by
  unfold trim trimEnd trimStart at h
  have h' := List.mem_reverse.mp ((List.dropWhile_sublist _).mem (List.mem_reverse.mp h))
  exact (List.dropWhile_sublist _).mem h'

end JossLang
