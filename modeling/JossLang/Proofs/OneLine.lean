import JossLang.Proofs.Digits
import JossLang.Transcript

/-!
# Texts on one line

A text without line breaks can be a line of a transcript. What is written with every line ended by a newline
(`unlines`) is cut into the same lines again, by either way to cut a text: `linesOf_unlines`, `programLines_unlines`.
-/

namespace JossLang

def OneLine (s : String) : Prop := ∀ c ∈ s.toList, isLineBreak c = false

@[simp] theorem oneLine_append {s t : String} : OneLine (s ++ t) ↔ OneLine s ∧ OneLine t := by
  simp only [OneLine, String.toList_append, List.forall_mem_append]

@[simp] theorem oneLine_ofList {cs : List Char} : OneLine (String.ofList cs) ↔ ∀ c ∈ cs, isLineBreak c = false := by
  rw [OneLine, String.toList_ofList]

instance (s : String) : Decidable (OneLine s) :=
  decidable_of_iff (s.toList.all fun c => !isLineBreak c) (by simp [OneLine])

theorem oneLine_literal {cs : List Char} (h : (cs.all fun c => !isLineBreak c) = true) : OneLine (String.ofList cs) := by
  simpa using h

theorem OneLine.append {s t : String} (hs : OneLine s) (ht : OneLine t) : OneLine (s ++ t) := oneLine_append.mpr ⟨hs, ht⟩

theorem oneLine_empty : OneLine "" := oneLine_literal rfl

theorem oneLine_intercalate {sep : String} (hsep : OneLine sep) {ls : List String} (h : ∀ l ∈ ls, OneLine l) :
    OneLine (sep.intercalate ls) := by
  intro c hc
  rw [String.toList_intercalate] at hc
  induction ls with
  | nil => simp at hc
  | cons l ls ih =>
    obtain ⟨hl, h⟩ := List.forall_mem_cons.mp h
    cases ls with
    | nil => exact hl c (by simpa using hc)
    | cons m ms =>
      rw [List.map_cons, List.map_cons, List.intercalate_cons_cons] at hc
      simp only [List.mem_append] at hc
      rcases hc with (hc | hc) | hc
      · exact hl c hc
      · exact hsep c hc
      · exact ih h hc

/-! ## Numbers -/

theorem not_lineBreak_of_digit {c : Char} (h : c.isDigit) : isLineBreak c = false := by
  simp [isLineBreak, Char.isDigit, UInt32.le_iff_toNat_le] at *
  omega

theorem oneLine_spellNat (n : Nat) : OneLine (spellNat n) :=
  oneLine_ofList.mpr fun c hc => not_lineBreak_of_digit (ascii_digitsOf n c hc)

theorem oneLine_spellInt (n : Int) : OneLine (spellInt n) := by
  rw [spellInt, oneLine_ofList]
  have hdigits : ∀ c ∈ digitsOf n.natAbs, isLineBreak c = false := fun c hc =>
    not_lineBreak_of_digit (ascii_digitsOf _ c hc)
  split
  · exact List.forall_mem_cons.mpr ⟨by decide, hdigits⟩
  · exact hdigits

/-! ## Lines -/

def unlines (ls : List String) : String := String.join (ls.map (· ++ "\n"))

@[simp] theorem unlines_nil : unlines [] = "" := rfl

@[simp] theorem unlines_cons (l : String) (ls : List String) : unlines (l :: ls) = l ++ "\n" ++ unlines ls := by
  rw [unlines, List.map_cons, String.join_cons, unlines]

@[simp] theorem unlines_append (ls ms : List String) : unlines (ls ++ ms) = unlines ls ++ unlines ms := by
  simp [unlines]

theorem linesOf_line {l : List Char} (hl : ∀ c ∈ l, isLineBreak c = false) (cs : List Char) :
    linesOf (l ++ '\n' :: cs) = l :: linesOf cs := by
  induction l with
  | nil =>
    rw [List.nil_append, linesOf]
    · rfl
    · nofun
  | cons c l ih =>
    obtain ⟨hc, hl⟩ := List.forall_mem_cons.mp hl
    rw [List.cons_append, linesOf, if_neg (by simp [hc]), ih hl, consLine]
    rintro _ rfl
    cases hc

theorem splitNewlines_line {l : List Char} (hl : ∀ c ∈ l, isLineBreak c = false) (cs : List Char) :
    splitNewlines (l ++ '\n' :: cs) = l :: splitNewlines cs := by
  induction l with
  | nil => rfl
  | cons c l ih =>
    obtain ⟨hc, hl⟩ := List.forall_mem_cons.mp hl
    have hne : c ≠ '\n' := by
      rintro rfl
      cases hc
    rw [List.cons_append, splitNewlines, if_neg hne, ih hl, consLine]

theorem linesOf_unlines {ls : List String} (h : ∀ l ∈ ls, OneLine l) : linesOf (unlines ls).toList = ls.map String.toList := by
  induction ls with
  | nil => rfl
  | cons l ls ih =>
    obtain ⟨hl, h⟩ := List.forall_mem_cons.mp h
    rw [unlines_cons, String.append_assoc, String.toList_append, String.toList_append, List.map_cons, ← ih h]
    exact linesOf_line hl _

theorem programLines_unlines {ls : List String} (h : ∀ l ∈ ls, OneLine l) (s : String) :
    programLines (unlines ls ++ s) = ls ++ programLines s := by
  induction ls with
  | nil => simp
  | cons l ls ih =>
    obtain ⟨hl, h⟩ := List.forall_mem_cons.mp h
    have hline : splitNewlines (unlines (l :: ls) ++ s).toList = l.toList :: splitNewlines (unlines ls ++ s).toList := by
      rw [← splitNewlines_line hl]
      simp
    rw [List.cons_append, ← ih h, programLines, hline, List.map_cons, String.ofList_toList, programLines]

/-! ## Blank lines at the end -/

theorem trimLines_append_empty (ls : List String) : trimLines (ls ++ [""]) = trimLines ls := by
  simp [trimLines, isBlankText]

theorem mem_of_mem_trimLines {ls : List String} {l : String} (h : l ∈ trimLines ls) : l ∈ ls := by
  rw [trimLines, List.mem_reverse] at h
  exact List.mem_reverse.mp ((List.dropWhile_sublist _).mem h)

theorem trimLines_trimLines (ls : List String) : trimLines (trimLines ls) = trimLines ls := by
  rw [trimLines, trimLines, List.reverse_reverse, List.dropWhile_idempotent]

theorem trimLines_cons (l : String) (ls : List String) :
    trimLines (l :: ls) = if trimLines ls = [] ∧ isBlankText l.toList = true then [] else l :: trimLines ls := by
  unfold trimLines
  rw [List.reverse_cons, List.dropWhile_append]
  generalize List.dropWhile _ ls.reverse = ks
  cases ks with
  | nil =>
    cases hb : isBlankText l.toList with
    | true => simp [hb]
    | false => simp [hb]
  | cons k ks => simp

theorem trimLines_eq_nil {ls : List String} (h : ∀ l ∈ ls, isBlankText l.toList = true) : trimLines ls = [] := by
  rw [trimLines, List.reverse_eq_nil_iff, List.dropWhile_eq_nil_iff]
  exact fun l hl => h l (List.mem_reverse.mp hl)

/-! ## Whole lines -/

/-- The text is made of whole lines: every one ends with a newline, and no other line break stands in it. -/
def WholeLines (s : String) : Prop := ∃ ls : List String, (∀ l ∈ ls, OneLine l) ∧ s = unlines ls

theorem wholeLines_empty : WholeLines "" := ⟨[], List.forall_mem_nil _, rfl⟩

theorem WholeLines.append {s t : String} (hs : WholeLines s) (ht : WholeLines t) : WholeLines (s ++ t) := by
  obtain ⟨ls, hls, rfl⟩ := hs
  obtain ⟨ms, hms, rfl⟩ := ht
  exact ⟨ls ++ ms, List.forall_mem_append.mpr ⟨hls, hms⟩, (unlines_append ls ms).symm⟩

theorem WholeLines.enclosed {s text : String} (hs : WholeLines s) (ht : OneLine text) : WholeLines (text ++ s ++ "\n") := by
  obtain ⟨ls, hls, rfl⟩ := hs
  cases ls with
  | nil => exact ⟨[text], List.forall_mem_singleton.mpr ht, by simp⟩
  | cons l ls =>
    obtain ⟨hl, hls⟩ := List.forall_mem_cons.mp hls
    refine ⟨(text ++ l) :: (ls ++ [""]), ?_, by simp [String.append_assoc]⟩
    refine List.forall_mem_cons.mpr ⟨oneLine_append.mpr ⟨ht, hl⟩, List.forall_mem_append.mpr ⟨hls, ?_⟩⟩
    exact List.forall_mem_singleton.mpr oneLine_empty

end JossLang
