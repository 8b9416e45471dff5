import JossLang.Proofs.NumberedLines

/-!
# Lines with single spaces

The lexemes of a line, written again with one space between them, are a line
with the same lexemes, which is read as the same line but for its columns:
`parse_respaced`. A space goes on with no lexeme but a text, and a text is
followed by no quotes in either line.
-/

namespace JossLang

/-! ## Writing lexemes again -/

def spaced (ls : List Lexeme) : List Char := [' '].intercalate (ls.map Lexeme.chars)

def behindSpaces (ls : List Lexeme) : List Char := ls.flatMap fun l => ' ' :: l.chars

def respaced (line : List Char) : List Char := spaced ((tokensOf line).map (·.lexeme))

theorem spaced_cons (l : Lexeme) (ls : List Lexeme) : spaced (l :: ls) = l.chars ++ behindSpaces ls := by
  induction ls generalizing l with
  | nil => simp [spaced, behindSpaces, List.intercalate_singleton]
  | cons m ls ih =>
    have h := ih m
    rw [spaced, List.map_cons] at h
    rw [spaced, List.map_cons, List.map_cons, List.intercalate_cons_cons, h]
    simp [behindSpaces]

theorem spaced_concat (ls : List Lexeme) (l : Lexeme) : ∃ front, spaced (ls ++ [l]) = front ++ l.chars := by
  cases ls with
  | nil => exact ⟨[], by rw [List.nil_append, spaced_cons, behindSpaces, List.flatMap_nil, List.append_nil, List.nil_append]⟩
  | cons m ls => exact ⟨m.chars ++ behindSpaces ls ++ [' '], by rw [List.cons_append, spaced_cons]; simp [behindSpaces]⟩

theorem mem_behindSpaces {d : Char} (hd : d ≠ ' ') {ls : List Lexeme} (h : d ∈ behindSpaces ls) :
    ∃ l ∈ ls, d ∈ l.chars := by
  obtain ⟨l, hl, hm⟩ := List.mem_flatMap.mp h
  exact ⟨l, hl, (List.mem_cons.mp hm).resolve_left hd⟩

/-! ## Cutting them off again -/

section
variable {c : Char} {cs rest : List Char} {l : Lexeme} (h : scan c cs = (.lexeme l, rest))
include h

theorem chars_of_scan : l.chars ++ rest = c :: cs := by
  have := chars_append_scan c cs
  rwa [h] at this

theorem head_of_scan : isBlank c = false ∧ ∃ w, l.chars = c :: w := by
  constructor
  · cases hb : isBlank c with
    | false => rfl
    | true => rw [scan, if_pos hb] at h; cases h
  · have hne : l.chars ≠ [] := by
      have := chars_scan_ne_nil c cs
      rwa [h] at this
    obtain ⟨d, w, hw⟩ := List.exists_cons_of_ne_nil hne
    have := chars_of_scan h
    rw [hw] at this
    obtain ⟨rfl, -⟩ := List.cons.inj this
    exact ⟨w, hw⟩

end

theorem Lexeme.endsBefore_nil (l : Lexeme) : l.EndsBefore [] := by
  cases l with
  | operator o => cases o <;> simp [EndsBefore]
  | _ => simp [EndsBefore]

/-- A character that the language does not have stays one wherever no sign and no text is made of it. -/
theorem scan_other {c d : Char} {cs rest : List Char} (hn : '\n' ∉ cs) (h : scan c cs = (.lexeme (.other d), rest))
    {cs' : List Char} (heq : cs'.head? ≠ some '=') (hquote : '"' ∈ cs' → '"' ∈ rest) :
    scan c cs' = (.lexeme (.other d), cs') := by
  unfold scan at h
  -- blanks, words, numbers and periods are never such a character; a quote is one if no text begins with it
  split_ifs at h with hb hname hd hp hf hq
  · cases h
  · have hl : wordLexeme (c :: cs.takeWhile isWordChar) = .other d := Piece.lexeme.inj (Prod.mk.inj h).1
    unfold wordLexeme at hl
    repeat' split at hl
    all_goals cases hl
  · cases h
  · cases h
  · cases h
  · split at h
    · cases h
    · next hlast =>
      cases h
      have hnone : '"' ∉ cs' := fun hm => lastQuote?_eq_none hn hlast (hquote hm)
      rw [hq, scan, if_neg (by decide), if_neg (by decide), if_neg (by decide), if_neg (by decide), if_pos rfl,
        lastQuote?_none hnone]
  · unfold scanSign at h
    split at h
    · cases h
    · have hl : signLexeme c = .other d := Piece.lexeme.inj (Prod.mk.inj h).1
      have hsign : isSign c := by simp [isSign, hb, hname, hd, hp, hq]
      rw [(scan_sign hsign cs').2, scanSign_single (.inr heq), hl]

/-- **Spaces.** A lexeme is cut off again from what a space begins, if no quotes have come behind it. -/
theorem scan_again {c : Char} {cs rest : List Char} {l : Lexeme} (hn : '\n' ∉ cs) (h : scan c cs = (.lexeme l, rest))
    {cs' : List Char} (hspace : ∀ d ∈ cs'.head?, d = ' ') (hquote : '"' ∈ cs' → '"' ∈ rest) :
    ∃ d ds, l.chars ++ cs' = d :: ds ∧ isBlank d = false ∧ scan d ds = (.lexeme l, cs') := by
  rcases scanned_scan h with hs | hk
  · refine scan_lexeme hs ?_
    by_cases hk : l.kind = .text
    · have hrest := (quotes_of_scan h hk).2 hn
      cases l with
      | text => exact fun hm => hrest (hquote hm)
      | _ => cases hk
    · cases cs' with
      | nil => exact l.endsBefore_nil
      | cons d ds =>
        obtain rfl := hspace d (by simp)
        exact Lexeme.endsBefore_blank hk ds
  · cases l with
    | other d =>
      have heq : cs'.head? ≠ some '=' := fun he => absurd (hspace _ he) (by decide)
      obtain ⟨hb, w, hw⟩ := head_of_scan h
      have hchars : Lexeme.chars (.other d) = [d] := by simp [Lexeme.chars, Lexeme.spelling]
      rw [hchars] at hw ⊢
      obtain ⟨rfl, -⟩ := List.cons.inj hw
      exact ⟨d, cs', rfl, hb, scan_other hn h heq hquote⟩
    | _ => cases hk

theorem mem_of_token {column : Nat} {cs : List Char} {t : Token} (ht : t ∈ tokensFrom column cs) {d : Char}
    (hd : d ∈ t.lexeme.chars) : d ∈ cs := by
  fun_induction tokensFrom column cs with
  | case1 => cases ht
  | case2 column c cs next blanks h ih => exact chars_append_scan c cs ▸ List.mem_append_right _ (ih ht)
  | case3 column c cs next l h ih =>
    rw [← chars_of_scan (Prod.ext h rfl)]
    rcases List.mem_cons.mp ht with rfl | ht
    · exact List.mem_append_left _ hd
    · exact List.mem_append_right _ (ih ht)

theorem mem_of_behindSpaces {column : Nat} {cs : List Char} {d : Char} (hd : d ≠ ' ')
    (h : d ∈ behindSpaces ((tokensFrom column cs).map (·.lexeme))) : d ∈ cs := by
  obtain ⟨l, hl, hm⟩ := mem_behindSpaces hd h
  obtain ⟨t, ht, rfl⟩ := List.mem_map.mp hl
  exact mem_of_token ht hm

theorem lexemes_behindSpaces (i j : Nat) {cs : List Char} (hn : '\n' ∉ cs) :
    (tokensFrom j (behindSpaces ((tokensFrom i cs).map (·.lexeme)))).map (·.lexeme) = (tokensFrom i cs).map (·.lexeme) := by
  fun_induction tokensFrom i cs generalizing j with
  | case1 => rw [List.map_nil, behindSpaces, List.flatMap_nil, tokensFrom_nil, List.map_nil]
  | case2 i c cs next blanks h ih => exact ih j (not_mem_of_scan hn)
  | case3 i c cs next l h ih =>
    have hspace : ∀ d ∈ (behindSpaces ((tokensFrom next (scan c cs).2).map (·.lexeme))).head?, d = ' ' := by
      cases tokensFrom next (scan c cs).2 with
      | nil => rintro _ ⟨⟩
      | cons => rintro _ ⟨⟩; rfl
    obtain ⟨d, ds, hds, hd, hscan⟩ := scan_again (fun hm => hn (List.mem_cons_of_mem _ hm)) (Prod.ext h rfl) hspace
      (mem_of_behindSpaces (by decide))
    rw [List.map_cons, behindSpaces, List.flatMap_cons, ← behindSpaces, List.cons_append, hds]
    obtain ⟨next', hnext'⟩ : ∃ next', tokensFrom j (' ' :: d :: ds) = tokensFrom next' ((d :: ds).dropWhile isBlank) :=
      tokensFrom_blank j (by decide)
    rw [List.dropWhile_cons_of_neg (by simp [hd])] at hnext'
    obtain ⟨next'', hnext''⟩ := tokensFrom_lexeme next' hscan
    rw [hnext', hnext'', List.map_cons, ih next'' (not_mem_of_scan hn)]

/-! ## Comments -/

theorem blanks_of_no_tokens {column : Nat} {cs : List Char} (h : tokensFrom column cs = []) : ∀ c ∈ cs, isBlank c := by
  fun_induction tokensFrom column cs with
  | case1 => exact List.forall_mem_nil _
  | case2 column c cs next blanks hscan ih =>
    have hc : isBlank c := by
      by_contra hb
      obtain ⟨l, rest, hl⟩ := scan_not_blank (by simpa using hb) cs
      rw [hl] at hscan
      cases hscan
    have hall : scan c cs = (.blanks (c :: cs.takeWhile isBlank), cs.dropWhile isBlank) := by rw [scan, if_pos hc]
    rw [hall] at h ih
    refine List.forall_mem_cons.mpr ⟨hc, fun d hd => ?_⟩
    rw [← List.takeWhile_append_dropWhile (p := isBlank) (l := cs)] at hd
    exact (List.mem_append.mp hd).elim (fun hm => List.mem_takeWhile_imp hm) (ih h d)
  | case3 => cases h

theorem last_token {column : Nat} {cs : List Char} {t : Token} (h : (tokensFrom column cs).getLast? = some t) :
    ∃ front c w blanks, t.lexeme.chars = c :: w ∧ isBlank c = false ∧ cs = front ++ (c :: w) ++ blanks ∧
      ∀ d ∈ blanks, isBlank d := by
  fun_induction tokensFrom column cs with
  | case1 => cases h
  | case2 column c cs next blanks hscan ih =>
    obtain ⟨front, d, w, bs, hw, hd, hcs, hbs⟩ := ih h
    refine ⟨(scan c cs).1.chars ++ front, d, w, bs, hw, hd, ?_, hbs⟩
    rw [← chars_append_scan c cs, hcs]
    simp only [List.append_assoc]
  | case3 column c cs next l hscan ih =>
    have hchars : l.chars ++ (scan c cs).2 = c :: cs := chars_of_scan (Prod.ext hscan rfl)
    cases hts : tokensFrom next (scan c cs).2 with
    | nil =>
      rw [hts, List.getLast?_singleton] at h
      obtain rfl := Option.some.inj h
      obtain ⟨hc, w, hw⟩ := head_of_scan (Prod.ext hscan rfl)
      exact ⟨[], c, w, _, hw, hc, by rw [← hchars, ← hw]; rfl, blanks_of_no_tokens hts⟩
    | cons u us =>
      rw [hts, List.getLast?_cons_cons, ← hts] at h
      obtain ⟨front, d, w, bs, hw, hd, hcs, hbs⟩ := ih h
      refine ⟨l.chars ++ front, d, w, bs, hw, hd, ?_, hbs⟩
      rw [← hchars, hcs]
      simp only [List.append_assoc]

theorem trimEnd_append_blanks (front : List Char) {blanks : List Char} (h : ∀ c ∈ blanks, isBlank c) :
    trimEnd (front ++ blanks) = trimEnd front := by
  rw [trimEnd, List.reverse_append, List.dropWhile_append_of_pos fun c hc => h c (List.mem_reverse.mp hc), trimEnd]

theorem getLast?_trimEnd_word (front : List Char) {c : Char} (hc : isBlank c = false) (w : List Char) {blanks : List Char}
    (h : ∀ d ∈ blanks, isBlank d) : (trimEnd (front ++ (c :: w) ++ blanks)).getLast? = (trimEnd (c :: w)).getLast? := by
  rw [trimEnd_append_blanks _ h]
  refine getLast?_trimEnd_append _ fun hnil => ?_
  have := head?_trimEnd hc w
  rw [hnil] at this
  cases this

theorem getLast?_trim {cs : List Char} (h : trim cs ≠ []) : (trim cs).getLast? = (trimEnd cs).getLast? := by
  have := getLast?_trimEnd_append (cs.takeWhile isBlank) h
  rwa [trimStart, List.takeWhile_append_dropWhile, eq_comm] at this

section
variable {text : List Char} (hn : '\n' ∉ text) (hc : isComment text = false)
include hc

theorem isComment_respaced : isComment (respaced text) = false := by
  obtain ⟨c, ds, l, rest, ls, hstart, hblank, hscan, hlexemes⟩ := trimStart_of_line hc
  obtain ⟨-, w, hw⟩ := head_of_scan hscan
  -- comments are told by their first and their last character, and both are kept
  have hhead : (trim text).head? = some c := by rw [trim, hstart, head?_trimEnd hblank]
  have hrespaced : respaced text = c :: (w ++ behindSpaces ls) := by
    rw [respaced, hlexemes, spaced_cons, hw, List.cons_append]
  have htrim : trim (respaced text) = trimEnd (respaced text) := by
    rw [trim, trimStart_eq (by rw [hrespaced]; rintro _ ⟨⟩; exact hblank)]
  have hhead' : (trim (respaced text)).head? = some c := by rw [htrim, hrespaced, head?_trimEnd hblank]
  have hlast : (trim (respaced text)).getLast? = (trim text).getLast? := by
    have htokens := tokensOf_eq hc
    obtain ⟨ts, t, hts⟩ := List.eq_nil_or_concat (tokensOf text) |>.resolve_left (tokensOf_ne_nil hc)
    rw [List.concat_eq_append] at hts
    have hend : (tokensFrom 1 text).getLast? = some t := by rw [← htokens, hts, List.getLast?_concat]
    obtain ⟨front, d, w', blanks, hw', hd, htext, hblanks⟩ := last_token hend
    obtain ⟨front', hfront'⟩ := spaced_concat (ts.map (·.lexeme)) t.lexeme
    have hrespaced' : respaced text = front' ++ (d :: w') ++ [] := by
      rw [List.append_nil, ← hw', ← hfront', respaced, hts, List.map_append]
      rfl
    rw [htrim, getLast?_trim (trim_ne_nil hc), hrespaced', getLast?_trimEnd_word front' hd w' (List.forall_mem_nil _)]
    conv_rhs => rw [htext, getLast?_trimEnd_word front hd w' hblanks]
  rw [isComment, List.isEmpty_eq_false_iff.mpr (trim_ne_nil hc), hhead] at hc
  rw [isComment, hhead', hlast]
  cases hbody : trim (respaced text) with
  | nil => rw [hbody] at hhead'; cases hhead'
  | cons => simpa using hc

include hn in
theorem lexemes_respaced : (tokensOf (respaced text)).map (·.lexeme) = (tokensOf text).map (·.lexeme) := by
  have htokens := tokensOf_eq hc
  rw [tokensOf_eq (isComment_respaced hc), respaced, htokens]
  have hagain := lexemes_behindSpaces 1 1 hn
  cases hts : (tokensFrom 1 text).map (·.lexeme) with
  | nil => exact absurd (htokens.trans (List.map_eq_nil_iff.mp hts)) (tokensOf_ne_nil hc)
  | cons l ls =>
    have hstart : trimStart (' ' :: spaced (l :: ls)) = trimStart (spaced (l :: ls)) :=
      List.dropWhile_cons_of_pos (by decide)
    rw [hts, behindSpaces, List.flatMap_cons, ← behindSpaces, List.cons_append, ← spaced_cons,
      ← lexemes_trimStart 1 1, hstart] at hagain
    rw [← lexemes_trimStart 1 1, hagain]

end

/-! ## Reading -/

def Source.respaced (src : Source) : Source := { src with text := JossLang.respaced src.text }

def SameLine (p q : Location) : Prop := p.file = q.file ∧ p.line = q.line

def Rereading.respaced (src : Source) : Rereading where
  src := src
  src' := src.respaced
  columns _ _ := True
  place := SameLine
  placed _ _ _ := ⟨rfl, rfl⟩

/-- **Normal form.** The lexemes of a line, with single spaces between them, are a line with the same lexemes, read as
the same line but for columns or else not read for the same reason. -/
theorem parse_respaced {src : Source} (hn : '\n' ∉ src.text) (hc : isComment src.text = false) :
    isComment src.respaced.text = false ∧
    (tokensOf src.respaced.text).map (·.lexeme) = (tokensOf src.text).map (·.lexeme) ∧
    (∀ u, Line.parse src = .ok u → ∃ u', Line.parse src.respaced = .ok u' ∧ u.Alike SameLine u') ∧
    ∀ e, Line.parse src = .error e → ∃ e', Line.parse src.respaced = .error e' ∧ e'.cause = e.cause := by
  have hlexemes := lexemes_respaced hn hc
  have hstreams : (Rereading.respaced src).Streams (Stream.ofLine src.text) (Stream.ofLine src.respaced.text) :=
    Rereading.streams_of_lexemes (fun _ _ => trivial) hlexemes.symm rfl
  have ho : (Rereading.respaced src).Outcome (Line.Alike SameLine) ((readLine src).run (Stream.ofLine src.text))
      ((readLine src.respaced).run (Stream.ofLine src.respaced.text)) := Rereading.readLine_agree _ _ hstreams
  refine ⟨isComment_respaced hc, hlexemes, ?_⟩
  rw [Line.parse, Line.read, Line.parse, Line.read]
  generalize (readLine src).run (Stream.ofLine src.text) = r at ho ⊢
  generalize (readLine src.respaced).run (Stream.ofLine src.respaced.text) = r' at ho ⊢
  cases ho with
  | ok hu _ =>
    refine ⟨fun u h => ⟨_, rfl, ?_⟩, by rintro _ ⟨⟩⟩
    rwa [← Except.ok.inj h]
  | error cause _ =>
    refine ⟨by rintro _ ⟨⟩, fun e h => ⟨_, rfl, ?_⟩⟩
    rw [← Except.error.inj h]

def tightSource : Source := ⟨"", 1, "1.2Type\"a\"\tb\",x<=.5 .".toList⟩

theorem parse_respaced_tight :
    tightSource.respaced.text = "1.2 Type \"a\"\tb\" , x <= .5 .".toList ∧
    isComment tightSource.respaced.text = false ∧
    (tokensOf tightSource.respaced.text).map (·.lexeme) = (tokensOf tightSource.text).map (·.lexeme) ∧
    (∀ u, Line.parse tightSource = .ok u → ∃ u', Line.parse tightSource.respaced = .ok u' ∧ u.Alike SameLine u') ∧
    ∀ e, Line.parse tightSource = .error e → ∃ e', Line.parse tightSource.respaced = .error e' ∧ e'.cause = e.cause :=
  ⟨by decide +kernel, parse_respaced (by decide +kernel) (by decide +kernel)⟩

end JossLang
