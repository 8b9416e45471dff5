import JossLang.Proofs.SpacedLines

/-!
# Slices of a text

The tokens of a text are slices of it that stand one behind the other, and what
stands outside of them is blank. `Slices` says so along the text; where each
token starts and ends, and what is left between, is read off it by position.
-/

namespace JossLang

/-! ## Places of tokens -/

namespace Token

variable (t : Token)

def stop : Nat := t.column + t.lexeme.chars.length

def Covers (column : Nat) : Prop := t.column ≤ column ∧ column < t.stop

instance (column : Nat) : Decidable (t.Covers column) := inferInstanceAs (Decidable (_ ∧ _))

def slice (text : List Char) : List Char := (text.drop (t.column - 1)).take t.lexeme.chars.length

end Token

/-- The text, whose first character is at the column, is cut into these tokens and blanks. -/
inductive Slices : Nat → List Token → List Char → Prop where
  | nil {column : Nat} : Slices column [] []
  | blank {column : Nat} {c : Char} {ts : List Token} {cs : List Char} (hc : isBlank c) (h : Slices (column + 1) ts cs) :
    Slices column ts (c :: cs)
  | token {column : Nat} {l : Lexeme} {ts : List Token} {cs : List Char} (hl : l.chars ≠ [])
    (h : Slices (column + l.chars.length) ts cs) : Slices column (⟨l, column⟩ :: ts) (l.chars ++ cs)

theorem Slices.blanks {ts : List Token} {bs cs : List Char} (hb : ∀ c ∈ bs, isBlank c) :
    ∀ {column}, Slices (column + bs.length) ts cs → Slices column ts (bs ++ cs) := by
  induction bs with
  | nil => exact id
  | cons b bs ih =>
    intro column h
    obtain ⟨hb, hbs⟩ := List.forall_mem_cons.mp hb
    refine .blank hb (ih hbs ?_)
    rwa [List.length_cons, Nat.add_comm bs.length, ← Nat.add_assoc] at h

theorem blanks_of_scan {c : Char} {cs bs : List Char} (h : (scan c cs).1 = .blanks bs) : ∀ b ∈ bs, isBlank b := by
  by_cases hc : isBlank c
  · rw [scan, if_pos hc] at h
    cases h
    exact List.forall_mem_cons.mpr ⟨hc, fun d hd => List.mem_takeWhile_imp hd⟩
  · obtain ⟨l, rest, hl⟩ := scan_not_blank (by simpa using hc) cs
    rw [hl] at h
    cases h

theorem slices_tokensFrom (column : Nat) (cs : List Char) : Slices column (tokensFrom column cs) cs := by
  fun_induction tokensFrom column cs with
  | case1 => exact .nil
  | case2 column c cs next blanks h ih =>
    have hcs := chars_append_scan c cs
    rw [h, Piece.chars] at hcs
    rw [show next = column + blanks.length from congrArg (column + ·.chars.length) h] at ih ⊢
    rw [← hcs]
    exact ih.blanks (blanks_of_scan h)
  | case3 column c cs next l h ih =>
    obtain ⟨-, w, hw⟩ := head_of_scan (Prod.ext h rfl)
    rw [show next = column + l.chars.length from congrArg (column + ·.chars.length) h] at ih ⊢
    rw [← chars_of_scan (Prod.ext h rfl)]
    exact .token (hw ▸ List.cons_ne_nil _ _) ih

/-! ## Reading slices by position -/

namespace Slices

variable {column : Nat} {ts : List Token} {cs : List Char} (h : Slices column ts cs)
include h

theorem le_column : ∀ t ∈ ts, column ≤ t.column := by
  induction h with
  | nil => nofun
  | blank _ _ ih => exact fun t ht => Nat.le_of_succ_le (ih t ht)
  | token _ _ ih => exact List.forall_mem_cons.mpr ⟨Nat.le_refl _, fun t ht => Nat.le_of_add_right_le (ih t ht)⟩

theorem chars_ne_nil : ∀ t ∈ ts, t.lexeme.chars ≠ [] := by
  induction h with
  | nil => nofun
  | blank _ _ ih => exact ih
  | token hl _ ih => exact List.forall_mem_cons.mpr ⟨hl, ih⟩

theorem pairwise : ts.Pairwise fun t u => t.stop ≤ u.column := by
  induction h with
  | nil => exact .nil
  | blank _ _ ih => exact ih
  | token _ h ih => exact .cons (fun u hu => h.le_column u hu) ih

theorem slice_eq : ∀ t ∈ ts, (cs.drop (t.column - column)).take t.lexeme.chars.length = t.lexeme.chars := by
  induction h with
  | nil => nofun
  | @blank column c ts cs _ h ih =>
    intro t ht
    have hle := h.le_column t ht
    rw [show t.column - column = (t.column - (column + 1)) + 1 by omega, List.drop_succ_cons]
    exact ih t ht
  | @token column l ts cs _ h ih =>
    refine List.forall_mem_cons.mpr ⟨by simp, fun t ht => ?_⟩
    have hle := h.le_column t ht
    rw [List.drop_append, List.drop_eq_nil_of_le (by omega), List.nil_append, Nat.sub_sub]
    exact ih t ht

theorem blank_or_covered : ∀ i c, cs[i]? = some c → isBlank c ∨ ∃ t ∈ ts, t.Covers (column + i) := by
  induction h with
  | nil => nofun
  | @blank column c ts cs hc _ ih =>
    intro i d hi
    cases i with
    | zero => exact .inl (Option.some.inj hi ▸ hc)
    | succ i =>
      rw [← Nat.add_assoc, Nat.add_right_comm]
      exact ih i d hi
  | @token column l ts cs _ _ ih =>
    intro i d hi
    by_cases hlt : i < l.chars.length
    · exact .inr ⟨_, List.mem_cons_self, Nat.le_add_right _ _, Nat.add_lt_add_left hlt _⟩
    · rw [List.getElem?_append_right (Nat.le_of_not_lt hlt)] at hi
      obtain hd | ⟨t, ht, hcovers⟩ := ih _ d hi
      · exact .inl hd
      · rw [show column + l.chars.length + (i - l.chars.length) = column + i by omega] at hcovers
        exact .inr ⟨t, List.mem_cons_of_mem _ ht, hcovers⟩

theorem length_le : ts.length ≤ cs.length := by
  induction h with
  | nil => exact Nat.le_refl _
  | blank _ _ ih => exact Nat.le_succ_of_le ih
  | token hl _ ih =>
    have := List.length_pos_iff.mpr hl
    rw [List.length_cons, List.length_append]
    omega

end Slices

/-! ## What tokens are written with -/

structure Lexeme.Classified (l : Lexeme) : Prop where
  keyword : l.kind = .keyword → ∃ k ∈ Keyword.all, l.spelling = k.spelling
  name : l.kind = .name → (∀ k ∈ Keyword.all, l.spelling ≠ k.spelling) ∧ l.spelling ≠ "and" ∧ l.spelling ≠ "or"
  number : l.kind = .number → Numeral l.spelling.toList

theorem wordLexeme_of_name {s : String} (h : wordLexeme s.toList = .name s) :
    (∀ k ∈ Keyword.all, s ≠ k.spelling) ∧ s ≠ "and" ∧ s ≠ "or" := by
  refine ⟨?_, ?_, ?_⟩
  · rintro k - rfl
    rw [(isWord_keyword k).2] at h
    cases h
  · rintro rfl
    exact absurd h (by decide)
  · rintro rfl
    exact absurd h (by decide)

theorem Lexeme.Scanned.classified {l : Lexeme} (h : l.Scanned) : l.Classified := by
  cases l with
  | keyword k => exact ⟨fun _ => ⟨k, k.mem_all, rfl⟩, nofun, nofun⟩
  | name s => exact ⟨nofun, fun _ => wordLexeme_of_name (h.resolve_right nofun).2, nofun⟩
  | number s => exact ⟨nofun, nofun, fun _ => h.resolve_right nofun⟩
  | _ => exact ⟨nofun, nofun, nofun⟩

/-- **Slices.** The tokens of a line that is no comment are slices of it in order that do not overlap, only blanks stand
outside of them, and each is spelled as its kind says. -/
theorem tokensOf_slices {text : List Char} (hc : isComment text = false) :
    (tokensOf text).length ≤ text.length ∧
    (tokensOf text).Pairwise (fun t u => t.column < u.column ∧ t.stop ≤ u.column) ∧
    (∀ t ∈ tokensOf text, 1 ≤ t.column ∧ t.lexeme.chars ≠ [] ∧ t.slice text = t.lexeme.chars) ∧
    (∀ i c, text[i]? = some c → isBlank c ∨ ∃ t ∈ tokensOf text, t.Covers (i + 1)) ∧
    ∀ t ∈ tokensOf text, t.lexeme.Classified := by
  have htokens := tokensOf_eq hc
  have h : Slices 1 (tokensOf text) text := htokens ▸ slices_tokensFrom 1 text
  refine ⟨h.length_le, ?_, fun t ht => ⟨h.le_column t ht, h.chars_ne_nil t ht, h.slice_eq t ht⟩, fun i c hi => ?_, ?_⟩
  · refine h.pairwise.imp_of_mem fun ht _ hstop => ⟨?_, hstop⟩
    have := List.length_pos_iff.mpr (h.chars_ne_nil _ ht)
    rw [Token.stop] at hstop
    omega
  · rw [Nat.add_comm]
    exact h.blank_or_covered i c hi
  · rw [htokens]
    exact fun t ht => (scanned_tokensFrom 1 text t ht).classified

def mixedText : List Char := "Type ifs, sét \"a\n\t٣.5<=.or".toList

theorem tokensOf_slices_mixed :
    (tokensOf mixedText).map (fun t => (t.lexeme.spelling, t.column)) =
      [("Type", 1), ("ifs", 6), (",", 9), ("sét", 11), ("\"", 15), ("a", 16), ("٣.5", 19), ("<=", 22), (".", 24), ("or", 25)] ∧
    (tokensOf mixedText).length ≤ mixedText.length ∧
    (tokensOf mixedText).Pairwise (fun t u => t.column < u.column ∧ t.stop ≤ u.column) ∧
    (∀ t ∈ tokensOf mixedText, 1 ≤ t.column ∧ t.lexeme.chars ≠ [] ∧ t.slice mixedText = t.lexeme.chars) ∧
    (∀ i c, mixedText[i]? = some c → isBlank c ∨ ∃ t ∈ tokensOf mixedText, t.Covers (i + 1)) ∧
    ∀ t ∈ tokensOf mixedText, t.lexeme.Classified :=
  ⟨by decide +kernel, tokensOf_slices (by decide +kernel)⟩

end JossLang
