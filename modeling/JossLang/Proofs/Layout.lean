import JossLang.Proofs.StepNames
import JossLang.Token

/-!
# Layouts

Lexemes are laid out in a text one behind the other, with blanks between them
wherever a lexeme would go on with what stands behind it (`EndsBefore`). A text
is cut into the lexemes that it lays out: `Lays.lexemes_tokensOf`.
-/

namespace JossLang

/-! ## Lexemes and what ends them -/

def isWord : List Char → Bool
  | [] => false
  | c :: cs => isNameStart c && cs.all isWordChar

def Lexeme.Sound : Lexeme → Prop
  | .name s => isWord s.toList ∧ wordLexeme s.toList = .name s
  | .number s => Numeral s.toList
  | .text s => '\n' ∉ s.toList
  | .other _ | .finish => False
  | .keyword _ | .operator _ | .caret | .opening _ | .closing _ | .comma | .semicolon | .colon | .period => True

/-- These characters do not go on with the lexeme. -/
def Lexeme.EndsBefore : Lexeme → List Char → Prop
  | .keyword _, cs | .name _, cs | .operator .or, cs | .operator .and, cs => ∀ c ∈ cs.head?, isWordChar c = false
  | .operator .lt, cs | .operator .gt, cs => cs.head? ≠ some '='
  | .number _, cs => (∀ c ∈ cs.head?, isDigit c = false) ∧ ∀ d ds, cs = '.' :: d :: ds → isDigit d = false
  | .period, cs => ∀ c ∈ cs.head?, isDigit c = false
  | .text _, cs => '"' ∉ cs
  | _, _ => True

inductive Lays : List Lexeme → List Char → Prop where
  | nil : Lays [] []
  | blank {c : Char} {ls : List Lexeme} {cs : List Char} (hc : isBlank c) (h : Lays ls cs) : Lays ls (c :: cs)
  | lexeme {l : Lexeme} {ls : List Lexeme} {cs : List Char} (hs : l.Sound) (he : l.EndsBefore cs) (h : Lays ls cs) :
    Lays (l :: ls) (l.chars ++ cs)

/-! ## Cutting off a lexeme -/

theorem span_append {α : Type} {p : α → Bool} {as bs : List α} (ha : ∀ a ∈ as, p a)
    (hb : ∀ b ∈ bs.head?, p b = false) :
    (as ++ bs).takeWhile p = as ∧ (as ++ bs).dropWhile p = bs := by
  rw [List.takeWhile_append_of_pos ha, List.dropWhile_append_of_pos ha]
  cases bs with
  | nil => simp
  | cons b bs => simp [hb b (by simp)]

section
variable {cs : List Char}

theorem scan_word {c : Char} {ws : List Char} (hw : isWord (c :: ws)) (hcs : ∀ d ∈ cs.head?, isWordChar d = false) :
    isBlank c = false ∧ scan c (ws ++ cs) = (.lexeme (wordLexeme (c :: ws)), cs) := by
  rw [isWord, Bool.and_eq_true, List.all_eq_true] at hw
  obtain ⟨htake, hdrop⟩ := span_append hw.2 hcs
  have hblank := not_blank_of_isNameStart hw.1
  refine ⟨hblank, ?_⟩
  rw [scan, if_neg (by simp [hblank]), if_pos hw.1, htake, hdrop]

theorem fractionOf_none (h : ∀ d ds, cs = '.' :: d :: ds → isDigit d = false) : fractionOf cs = ([], cs) := by
  unfold fractionOf
  split
  · next d ds => rw [if_neg (by simp [h d ds rfl])]
  · rfl

theorem fractionOf_some {fs : List Char} (hne : fs ≠ []) (hf : ∀ c ∈ fs, isDigit c)
    (hcs : ∀ d ∈ cs.head?, isDigit d = false) : fractionOf ('.' :: (fs ++ cs)) = ('.' :: fs, cs) := by
  obtain ⟨f, fs, rfl⟩ := List.exists_cons_of_ne_nil hne
  obtain ⟨htake, hdrop⟩ := span_append (fun c hc => hf c (List.mem_cons_of_mem _ hc)) hcs
  rw [List.cons_append, fractionOf, if_pos (hf f List.mem_cons_self), htake, hdrop]

theorem scan_digit {c : Char} {ds : List Char} (hc : isDigit c) (hd : ∀ d ∈ ds, isDigit d) {tail : List Char}
    (ht : ∀ d ∈ tail.head?, isDigit d = false) {fs : List Char} (hf : fractionOf tail = (fs, cs)) :
    isBlank c = false ∧ scan c (ds ++ tail) = (.lexeme (.number (String.ofList (c :: ds ++ fs))), cs) := by
  obtain ⟨htake, hdrop⟩ := span_append hd ht
  have hblank := not_blank_of_isDigit hc
  refine ⟨hblank, ?_⟩
  rw [scan, if_neg (by simp [hblank]), if_neg (by simp [not_nameStart_of_isDigit hc]), if_pos hc, htake, hdrop, hf]

theorem scan_number {s : String} (hs : Numeral s.toList) (he : (Lexeme.number s).EndsBefore cs) :
    ∃ c ds, s.toList ++ cs = c :: ds ∧ isBlank c = false ∧ scan c ds = (.lexeme (.number s), cs) := by
  generalize hcs : s.toList = ds at hs
  obtain rfl : s = String.ofList ds := by rw [← hcs, String.ofList_toList]
  cases hs with
  | whole hne hd =>
    obtain ⟨c, ds, rfl⟩ := List.exists_cons_of_ne_nil hne
    have := scan_digit (hd c List.mem_cons_self) (fun d hm => hd d (List.mem_cons_of_mem _ hm)) he.1
      (fractionOf_none he.2)
    rw [List.append_nil] at this
    exact ⟨c, ds ++ cs, rfl, this⟩
  | @pointed ds fs hd hne hf =>
    have hfraction := fractionOf_some hne hf he.1
    cases ds with
    | nil =>
      refine ⟨'.', fs ++ cs, rfl, by decide, ?_⟩
      rw [scan, if_neg (by decide), if_neg (by decide), if_neg (by decide), if_pos rfl, hfraction,
        if_neg (List.cons_ne_nil _ _)]
      rfl
    | cons c ds =>
      have := scan_digit (hd c List.mem_cons_self)
        (fun d hm => hd d (List.mem_cons_of_mem _ hm)) (by simp; decide) hfraction
      exact ⟨c, ds ++ '.' :: (fs ++ cs), by simp, this⟩

theorem lastQuote?_none (h : '"' ∉ cs) : lastQuote? cs = none := by
  induction cs with
  | nil => rfl
  | cons c cs ih =>
    rw [List.mem_cons, not_or] at h
    rw [lastQuote?, ih h.2, if_neg (Ne.symm h.1), ite_self]

theorem lastQuote?_some {inside : List Char} (hn : '\n' ∉ inside) (h : '"' ∉ cs) :
    lastQuote? (inside ++ '"' :: cs) = some (inside, cs) := by
  induction inside with
  | nil => rw [List.nil_append, lastQuote?, lastQuote?_none h, if_neg (by decide)]; rfl
  | cons c inside ih =>
    rw [List.mem_cons, not_or] at hn
    rw [List.cons_append, lastQuote?, if_neg (Ne.symm hn.1), ih hn.2]

theorem scan_text {s : String} (hs : '\n' ∉ s.toList) (h : '"' ∉ cs) :
    scan '"' (s.toList ++ '"' :: cs) = (.lexeme (.text s), cs) := by
  rw [scan, if_neg (by decide), if_neg (by decide), if_neg (by decide), if_neg (by decide), if_pos rfl,
    lastQuote?_some hs h]
  dsimp only
  rw [String.ofList_toList]

theorem scan_period (h : ∀ d ∈ cs.head?, isDigit d = false) : scan '.' cs = (.lexeme .period, cs) := by
  have hnone : fractionOf ('.' :: cs) = ([], '.' :: cs) := fractionOf_none fun d ds hd => by
    cases hd
    exact h d (by simp)
  rw [scan, if_neg (by decide), if_neg (by decide), if_neg (by decide), if_pos rfl, hnone, if_pos rfl]

def isSign (c : Char) : Bool := !isBlank c && !isNameStart c && !isDigit c && c != '.' && c != '"'

theorem scan_sign {c : Char} (hc : isSign c) (cs : List Char) : isBlank c = false ∧ scan c cs = scanSign c cs := by
  simp only [isSign, Bool.and_eq_true, Bool.not_eq_true', bne_iff_ne] at hc
  obtain ⟨⟨⟨⟨hb, hn⟩, hd⟩, hp⟩, hq⟩ := hc
  refine ⟨hb, ?_⟩
  rw [scan, if_neg (by simp [hb]), if_neg (by simp [hn]), if_neg (by simp [hd]), if_neg hp, if_neg hq]

theorem scanSign_single {c : Char} (h : compareSign? c = none ∨ cs.head? ≠ some '=') :
    scanSign c cs = (.lexeme (signLexeme c), cs) := by
  unfold scanSign
  split
  · next o rest ho =>
    rcases h with h | h
    · rw [h] at ho; cases ho
    · exact absurd rfl h
  · rfl

theorem scanSign_compare {c : Char} {o : Operator} (ho : compareSign? c = some o) :
    scanSign c ('=' :: cs) = (.lexeme (.operator o), cs) := by
  simp [scanSign, ho]

end

theorem isWord_keyword (k : Keyword) : isWord k.spelling.toList ∧ wordLexeme k.spelling.toList = .keyword k := by
  cases k <;> decide

/-- **Cutting.** A lexeme is cut off from what does not go on with it. -/
theorem scan_lexeme {l : Lexeme} {cs : List Char} (hs : l.Sound) (he : l.EndsBefore cs) :
    ∃ c ds, l.chars ++ cs = c :: ds ∧ isBlank c = false ∧ scan c ds = (.lexeme l, cs) := by
  -- a lexeme is cut off as a word, as one sign or as a comparison of two signs; numbers, texts and periods
  -- have lemmas of their own
  have hword : ∀ w, isWord w → wordLexeme w = l → (∀ c ∈ cs.head?, isWordChar c = false) →
      ∃ c ds, w ++ cs = c :: ds ∧ isBlank c = false ∧ scan c ds = (.lexeme l, cs) := by
    intro w hw hl hcs
    cases w with
    | nil => cases hw
    | cons c ws => exact ⟨c, ws ++ cs, rfl, hl ▸ scan_word hw hcs⟩
  have hsign : ∀ c, l.chars = [c] → isSign c → signLexeme c = l → (compareSign? c = none ∨ cs.head? ≠ some '=') →
      ∃ c ds, l.chars ++ cs = c :: ds ∧ isBlank c = false ∧ scan c ds = (.lexeme l, cs) := by
    intro c hl hc hsl h
    obtain ⟨hb, hscan⟩ := scan_sign hc cs
    exact ⟨c, cs, by rw [hl]; rfl, hb, by rw [hscan, scanSign_single h, hsl]⟩
  have hcompare : ∀ c o, l = .operator o → isSign c → compareSign? c = some o → l.chars = [c, '='] →
      ∃ c ds, l.chars ++ cs = c :: ds ∧ isBlank c = false ∧ scan c ds = (.lexeme l, cs) := by
    intro c o hl hc ho hchars
    obtain ⟨hb, hscan⟩ := scan_sign hc ('=' :: cs)
    exact ⟨c, '=' :: cs, by rw [hchars]; rfl, hb, by rw [hscan, scanSign_compare ho, hl]⟩
  cases l with
  | keyword k => exact hword _ (isWord_keyword k).1 (isWord_keyword k).2 he
  | name s => exact hword _ hs.1 hs.2 he
  | number s => exact scan_number hs he
  | text s =>
    refine ⟨'"', s.toList ++ '"' :: cs, ?_, by decide, scan_text hs he⟩
    simp [Lexeme.chars, Lexeme.spelling]
  | period => exact ⟨'.', cs, rfl, by decide, scan_period he⟩
  | other | finish => exact hs.elim
  | operator o =>
    cases o with
    | or => exact hword ['o', 'r'] (by decide) (by decide) he
    | and => exact hword ['a', 'n', 'd'] (by decide) (by decide) he
    | ne => exact hcompare '!' .ne rfl (by decide) rfl rfl
    | le => exact hcompare '<' .le rfl (by decide) rfl rfl
    | ge => exact hcompare '>' .ge rfl (by decide) rfl rfl
    | lt => exact hsign '<' rfl (by decide) rfl (.inr he)
    | gt => exact hsign '>' rfl (by decide) rfl (.inr he)
    | eq => exact hsign '=' rfl (by decide) rfl (.inl rfl)
    | add => exact hsign '+' rfl (by decide) rfl (.inl rfl)
    | sub => exact hsign '-' rfl (by decide) rfl (.inl rfl)
    | div => exact hsign '/' rfl (by decide) rfl (.inl rfl)
    | mul => exact hsign '*' rfl (by decide) rfl (.inl rfl)
  | caret => exact hsign '^' rfl (by decide) rfl (.inl rfl)
  | opening b => cases b with
    | round => exact hsign '(' rfl (by decide) rfl (.inl rfl)
    | square => exact hsign '[' rfl (by decide) rfl (.inl rfl)
  | closing b => cases b with
    | round => exact hsign ')' rfl (by decide) rfl (.inl rfl)
    | square => exact hsign ']' rfl (by decide) rfl (.inl rfl)
  | comma => exact hsign ',' rfl (by decide) rfl (.inl rfl)
  | semicolon => exact hsign ';' rfl (by decide) rfl (.inl rfl)
  | colon => exact hsign ':' rfl (by decide) rfl (.inl rfl)

/-! ## The lexemes of a text -/

section
variable {c : Char} {cs rest : List Char} (column : Nat)

theorem tokensFrom_lexeme {l : Lexeme} (h : scan c cs = (.lexeme l, rest)) :
    ∃ next, tokensFrom column (c :: cs) = ⟨l, column⟩ :: tokensFrom next rest := by
  rw [tokensFrom]
  simp only [h]
  exact ⟨_, rfl⟩

theorem tokensFrom_blank (h : isBlank c) :
    ∃ next, tokensFrom column (c :: cs) = tokensFrom next (cs.dropWhile isBlank) := by
  have hscan : scan c cs = (.blanks (c :: cs.takeWhile isBlank), cs.dropWhile isBlank) := by rw [scan, if_pos h]
  rw [tokensFrom]
  simp only [hscan]
  exact ⟨_, rfl⟩

end

theorem tokensFrom_nil (column : Nat) : tokensFrom column [] = [] := by rw [tokensFrom]

theorem Lays.lexemes_tokensFrom {ls : List Lexeme} {cs : List Char} (h : Lays ls cs) :
    ∀ column, (tokensFrom column cs).map (·.lexeme) = ls := by
  -- a run of blanks is cut off at once, so what is left behind it counts too
  have hboth : ∀ column, (tokensFrom column cs).map (·.lexeme) = ls ∧
      (tokensFrom column (cs.dropWhile isBlank)).map (·.lexeme) = ls := by
    induction h with
    | nil => intro column; simp [tokensFrom_nil]
    | blank hc _ ih =>
      intro column
      obtain ⟨next, hnext⟩ := tokensFrom_blank column hc
      rw [hnext, List.dropWhile_cons_of_pos hc]
      exact ⟨(ih next).2, (ih column).2⟩
    | lexeme hs he _ ih =>
      intro column
      obtain ⟨c, ds, hcs, hc, hscan⟩ := scan_lexeme hs he
      obtain ⟨next, hnext⟩ := tokensFrom_lexeme column hscan
      rw [hcs, List.dropWhile_cons_of_neg (by simp [hc]), hnext, List.map_cons, (ih next).1]
      exact ⟨rfl, rfl⟩
  exact fun column => (hboth column).1

/-! ## Lines that are no comments -/

theorem tokensOf_eq {text : List Char} (h : isComment text = false) : tokensOf text = tokensFrom 1 text := by
  rw [tokensOf, h, if_neg Bool.false_ne_true]

theorem Lays.trimStart_eq {l : Lexeme} {ls : List Lexeme} {cs : List Char} (h : Lays (l :: ls) cs) :
    ∃ c ds rest, trimStart cs = c :: ds ∧ scan c ds = (.lexeme l, rest) := by
  generalize hls : l :: ls = ls' at h
  induction h with
  | nil => cases hls
  | blank hc _ ih =>
    rw [trimStart, List.dropWhile_cons_of_pos hc]
    exact ih hls
  | @lexeme l' _ cs hs he _ _ =>
    cases hls
    obtain ⟨c, ds, hcs, hc, hscan⟩ := scan_lexeme hs he
    refine ⟨c, ds, cs, ?_, hscan⟩
    rw [trimStart, hcs, List.dropWhile_cons_of_neg (by simp [hc])]

theorem Lays.blanks_of_nil {cs : List Char} (h : Lays [] cs) : ∀ c ∈ cs, isBlank c := by
  generalize hls : ([] : List Lexeme) = ls at h
  induction h with
  | nil => nofun
  | blank hc _ ih => exact List.forall_mem_cons.mpr ⟨hc, ih hls⟩
  | lexeme => cases hls

theorem Lays.period_last {ls : List Lexeme} {cs : List Char} (h : Lays (ls ++ [.period]) cs) :
    ∃ front blanks, cs = front ++ '.' :: blanks ∧ ∀ c ∈ blanks, isBlank c := by
  generalize hls : ls ++ [.period] = ls' at h
  induction h generalizing ls with
  | nil => simp at hls
  | @blank c _ _ hc _ ih =>
    obtain ⟨front, blanks, rfl, hb⟩ := ih hls
    exact ⟨c :: front, blanks, rfl, hb⟩
  | @lexeme l _ cs hs he h ih =>
    cases ls with
    | nil =>
      obtain ⟨rfl, rfl⟩ := List.cons.inj hls
      refine ⟨[], cs, rfl, ?_⟩
      exact h.blanks_of_nil
    | cons l' ls =>
      obtain ⟨front, blanks, rfl, hb⟩ := ih (List.cons.inj hls).2
      exact ⟨l.chars ++ front, blanks, by rw [List.append_assoc], hb⟩

theorem trimStart_period (front blanks : List Char) :
    ∃ body, trimStart (front ++ '.' :: blanks) = body ++ '.' :: blanks := by
  induction front with
  | nil => exact ⟨[], by rw [List.nil_append, trimStart, List.dropWhile_cons_of_neg (by decide)]⟩
  | cons c front ih =>
    by_cases hc : isBlank c
    · rw [List.cons_append, trimStart, List.dropWhile_cons_of_pos hc]
      exact ih
    · exact ⟨c :: front, by rw [List.cons_append, trimStart, List.dropWhile_cons_of_neg hc]⟩

theorem trimEnd_period (body : List Char) {blanks : List Char} (hb : ∀ c ∈ blanks, isBlank c) :
    trimEnd (body ++ '.' :: blanks) = body ++ ['.'] := by
  have hr : ∀ c ∈ blanks.reverse, isBlank c := fun c hc => hb c (List.mem_reverse.mp hc)
  rw [trimEnd, List.reverse_append, List.reverse_cons, List.append_assoc, List.dropWhile_append_of_pos hr,
    List.singleton_append, List.dropWhile_cons_of_neg (by decide), List.reverse_cons, List.reverse_reverse]

section
variable {l : Lexeme} {ls ms : List Lexeme} {cs : List Char} (h : Lays (l :: ls) cs) (hl : l ≠ .operator .mul)
  (hp : l :: ls = ms ++ [.period])
include h hl hp

theorem Lays.isComment_eq : isComment cs = false := by
  obtain ⟨front, blanks, rfl, hb⟩ := Lays.period_last (hp ▸ h)
  obtain ⟨c, ds, rest, hcs, hscan⟩ := h.trimStart_eq
  obtain ⟨body, hbody⟩ := trimStart_period front blanks
  have hc : c ≠ '*' := by
    rintro rfl
    rw [(scan_sign (by decide) ds).2, scanSign_single (.inl rfl)] at hscan
    cases hscan
    exact hl rfl
  have htrim : trim (front ++ '.' :: blanks) = body ++ ['.'] := by rw [trim, hbody, trimEnd_period body hb]
  have hhead : (body ++ ['.']).head? = some c := by
    rw [hbody] at hcs
    cases body with
    | nil => cases hcs; rfl
    | cons b body => cases hcs; rfl
  rw [isComment, htrim, hhead]
  simp [hc]

/-- **Layout.** A line is cut into the lexemes that it lays out. -/
theorem Lays.lexemes_tokensOf : (tokensOf cs).map (·.lexeme) = l :: ls := by
  rw [tokensOf_eq (h.isComment_eq hl hp)]
  exact h.lexemes_tokensFrom 1

end

theorem Lays.tokensOf_eq_nil {cs : List Char} (h : Lays [] cs) : tokensOf cs = [] := by
  rw [tokensOf]
  split
  · rfl
  · exact List.map_eq_nil_iff.mp (h.lexemes_tokensFrom 1)

/-! ## Every line can be laid out -/

def spread (ls : List Lexeme) : List Char := ls.flatMap fun l => l.chars ++ [' ']

theorem isWordChar_mark {c : Char} (hc : c ∈ [' ', '.', '"', '\n']) : isWordChar c = false := by
  have hmarks : [' ', '.', '"', '\n'].all (!isWordChar ·) := by decide +kernel
  simpa using List.all_eq_true.mp hmarks c hc

theorem Lexeme.endsBefore_blank {l : Lexeme} (hl : l.kind ≠ .text) (cs : List Char) : l.EndsBefore (' ' :: cs) := by
  have hword : ∀ c ∈ (' ' :: cs).head?, isWordChar c = false := by
    rintro c ⟨⟩
    exact isWordChar_mark (by decide)
  have hdigit : ∀ c ∈ (' ' :: cs).head?, isDigit c = false := by
    rintro c ⟨⟩
    decide
  cases l with
  | text => exact absurd rfl hl
  | keyword | name => exact hword
  | number => exact ⟨hdigit, nofun⟩
  | period => exact hdigit
  | operator o =>
    cases o with
    | or | and => exact hword
    | lt | gt => exact fun h => absurd (Option.some.inj h) (by decide)
    | _ => trivial
  | _ => trivial

theorem Numeral.digit_or_point {cs : List Char} (h : Numeral cs) {c : Char} (hc : c ∈ cs) : isDigit c ∨ c = '.' := by
  cases h with
  | whole _ hd => exact .inl (hd c hc)
  | pointed hd hne hf => exact Pointed.digit_or_point ⟨rfl, hd, hne, hf⟩ hc

theorem not_mem_of_isWord {cs : List Char} (h : isWord cs) {d : Char} (hd : isWordChar d = false) : d ∉ cs := by
  have hne : ∀ c, isWordChar c → d ≠ c := by
    rintro c hc rfl
    rw [hc] at hd
    cases hd
  cases cs with
  | nil => cases h
  | cons c cs =>
    rw [isWord, Bool.and_eq_true, List.all_eq_true] at h
    intro hm
    rcases List.mem_cons.mp hm with rfl | hm
    · exact hne d (isWordChar_of_isNameStart h.1) rfl
    · exact hne d (h.2 d hm) rfl

theorem Lexeme.Sound.not_mem {l : Lexeme} (hs : l.Sound) (hl : l.kind ≠ .text) :
    '"' ∉ l.chars ∧ '\n' ∉ l.chars := by
  cases l with
  | text => exact absurd rfl hl
  | other | finish => exact hs.elim
  | keyword k => cases k <;> decide
  | operator o => cases o <;> decide
  | opening b | closing b => cases b <;> decide
  | name s => exact ⟨not_mem_of_isWord hs.1 (isWordChar_mark (by decide)), not_mem_of_isWord hs.1 (isWordChar_mark (by decide))⟩
  | number s =>
    have hnumber : ∀ d, isDigit d = false → d ≠ '.' → d ∉ s.toList := fun d hd hp hm =>
      (Numeral.digit_or_point hs hm).elim (fun h => ne_of_isDigit h hd rfl) hp
    exact ⟨hnumber _ (by decide) (by decide), hnumber _ (by decide) (by decide)⟩
  | _ => decide

/-- Lexemes with at most one text among them can be laid out. -/
theorem lays_spread {ls : List Lexeme} (hs : ∀ l ∈ ls, l.Sound) (ht : ls.countP (·.kind = .text) ≤ 1) :
    Lays ls (spread ls) := by
  induction ls with
  | nil => exact .nil
  | cons l ls ih =>
    obtain ⟨hl, hs⟩ := List.forall_mem_cons.mp hs
    rw [List.countP_cons] at ht
    rw [spread, List.flatMap_cons, List.append_assoc, List.singleton_append]
    refine .lexeme hl ?_ (.blank (by decide) (ih hs (by omega)))
    by_cases hk : l.kind = .text
    · -- behind the text no other one is opened
      rw [if_pos (by simpa using hk)] at ht
      have hnone : ∀ m ∈ ls, m.kind ≠ .text := by
        simpa using List.countP_eq_zero.mp (show ls.countP (·.kind = .text) = 0 by omega)
      have hquote : '"' ∉ ' ' :: spread ls := by
        rw [spread, List.mem_cons, List.mem_flatMap, not_or]
        refine ⟨by decide, ?_⟩
        rintro ⟨m, hm, hq⟩
        rcases List.mem_append.mp hq with hq | hq
        · exact ((hs m hm).not_mem (hnone m hm)).1 hq
        · exact absurd hq (by decide)
      cases l with
      | text => exact hquote
      | _ => cases hk
    · exact Lexeme.endsBefore_blank hk _

theorem line_break_not_mem_spread {ls : List Lexeme} (hs : ∀ l ∈ ls, l.Sound) : '\n' ∉ spread ls := by
  rw [spread, List.mem_flatMap]
  rintro ⟨l, hl, hm⟩
  rcases List.mem_append.mp hm with hm | hm
  · by_cases hk : l.kind = .text
    · cases l with
      | text s =>
        have htext : '\n' ∉ s.toList := hs _ hl
        simp [Lexeme.chars, Lexeme.spelling, htext] at hm
      | _ => cases hk
    · exact ((hs l hl).not_mem hk).2 hm
  · exact absurd hm (by decide)

/-! ## The lexemes of any line -/

def Lexeme.Scanned (l : Lexeme) : Prop := l.Sound ∨ l.kind = .other

theorem scanned_wordLexeme {cs : List Char} (h : isWord cs) : (wordLexeme cs).Scanned := by
  have hchars := chars_wordLexeme cs
  cases hl : wordLexeme cs with
  | name s =>
    rw [hl, Lexeme.chars, Lexeme.spelling] at hchars
    exact .inl ⟨hchars ▸ h, hchars ▸ hl⟩
  | other => exact .inr rfl
  | keyword | operator | caret | opening | closing | comma | semicolon | colon | period => exact .inl trivial
  | number | text | finish =>
    unfold wordLexeme at hl
    repeat' split at hl
    all_goals cases hl

theorem scanned_signLexeme (c : Char) : (signLexeme c).Scanned := by
  unfold signLexeme
  split <;> first | exact .inl trivial | exact .inr rfl

theorem scanned_scanSign {c : Char} {cs rest : List Char} {l : Lexeme} (h : scanSign c cs = (.lexeme l, rest)) :
    l.Scanned := by
  unfold scanSign at h
  split at h
  · cases h; exact .inl trivial
  · cases h; exact scanned_signLexeme c

theorem fractionOf_digits (cs : List Char) : (fractionOf cs).1 = [] ∨
    ∃ fs, (fractionOf cs).1 = '.' :: fs ∧ fs ≠ [] ∧ ∀ c ∈ fs, isDigit c := by
  unfold fractionOf
  split
  · next d ds =>
    split
    · next hd =>
      exact .inr ⟨_, rfl, List.cons_ne_nil _ _, List.forall_mem_cons.mpr ⟨hd, fun c hc => List.mem_takeWhile_imp hc⟩⟩
    · exact .inl rfl
  · exact .inl rfl

theorem numeral_digits {c : Char} {cs : List Char} (hc : isDigit c) (tail : List Char) :
    Numeral (c :: cs.takeWhile isDigit ++ (fractionOf tail).1) := by
  have hd : ∀ d ∈ c :: cs.takeWhile isDigit, isDigit d :=
    List.forall_mem_cons.mpr ⟨hc, fun d hd => List.mem_takeWhile_imp hd⟩
  rcases fractionOf_digits tail with hf | ⟨fs, hf, hne, hfs⟩
  · rw [hf, List.append_nil]
    exact .whole (List.cons_ne_nil _ _) hd
  · rw [hf]
    exact .pointed hd hne hfs

theorem sound_number {cs : List Char} (h : Numeral cs) : (Lexeme.number (String.ofList cs)).Sound := by
  show Numeral _
  rwa [String.toList_ofList]

theorem numeral_fraction {cs : List Char} (h : (fractionOf cs).1 ≠ []) : Numeral (fractionOf cs).1 := by
  rcases fractionOf_digits cs with hf | ⟨fs, hf, hne, hfs⟩
  · exact absurd hf h
  · rw [hf]
    have hpointed : Pointed ('.' :: fs) [] fs := ⟨rfl, nofun, hne, hfs⟩
    exact hpointed.numeral

/-- The last quote is looked for in its own line. -/
theorem line_break_not_mem_inside {cs inside rest : List Char} (h : lastQuote? cs = some (inside, rest)) :
    '\n' ∉ inside := by
  induction cs generalizing inside rest with
  | nil => cases h
  | cons c cs ih =>
    unfold lastQuote? at h
    split at h
    · cases h
    · next hc =>
      split at h
      · next i r hi =>
        cases h
        rw [List.mem_cons, not_or]
        exact ⟨Ne.symm hc, ih hi⟩
      · split at h
        · cases h
          exact List.not_mem_nil
        · cases h

theorem scanned_scan {c : Char} {cs rest : List Char} {l : Lexeme} (h : scan c cs = (.lexeme l, rest)) :
    l.Scanned := by
  unfold scan at h
  split_ifs at h with hb hname hd hp hf hq
  · cases h
  · cases h
    exact scanned_wordLexeme (by rw [isWord, hname, List.all_eq_true.mpr fun d hd => List.mem_takeWhile_imp hd]; rfl)
  · cases h
    exact .inl (sound_number (numeral_digits hd _))
  · cases h
    exact .inl trivial
  · cases h
    exact .inl (sound_number (numeral_fraction hf))
  · split at h
    · next inside rest hlast =>
      cases h
      refine .inl (show '\n' ∉ _ from ?_)
      rw [String.toList_ofList]
      exact line_break_not_mem_inside hlast
    · cases h
      exact .inr rfl
  · exact scanned_scanSign h

theorem lastQuote?_eq_none {cs : List Char} (hn : '\n' ∉ cs) (h : lastQuote? cs = none) : '"' ∉ cs := by
  induction cs with
  | nil => nofun
  | cons c cs ih =>
    rw [List.mem_cons, not_or] at hn
    rw [lastQuote?, if_neg (Ne.symm hn.1)] at h
    cases hlast : lastQuote? cs with
    | some p => rw [hlast] at h; cases h
    | none =>
      rw [hlast] at h
      by_cases hc : c = '"'
      · simp [hc] at h
      · rw [List.mem_cons, not_or]
        exact ⟨Ne.symm hc, ih hn.2 hlast⟩

theorem lastQuote?_rest {cs inside rest : List Char} (hn : '\n' ∉ cs) (h : lastQuote? cs = some (inside, rest)) :
    '"' ∉ rest := by
  induction cs generalizing inside with
  | nil => cases h
  | cons c cs ih =>
    rw [List.mem_cons, not_or] at hn
    rw [lastQuote?, if_neg (Ne.symm hn.1)] at h
    cases hlast : lastQuote? cs with
    | some p =>
      rw [hlast] at h
      cases h
      exact ih hn.2 hlast
    | none =>
      rw [hlast] at h
      by_cases hc : c = '"'
      · simp only [hc, if_true, Option.some.injEq, Prod.mk.injEq] at h
        exact h.2 ▸ lastQuote?_eq_none hn.2 hlast
      · simp [hc] at h

/-- A text is cut off up to the last quote, so that no quote is left behind it. -/
theorem quotes_of_scan {c : Char} {cs rest : List Char} {l : Lexeme} (h : scan c cs = (.lexeme l, rest))
    (hl : l.kind = .text) : c = '"' ∧ ('\n' ∉ cs → '"' ∉ rest) := by
  cases l with
  | text s =>
    have hchars := chars_append_scan c cs
    rw [h, Piece.chars, Lexeme.chars, Lexeme.spelling, String.append_assoc, String.toList_append] at hchars
    obtain rfl : c = '"' := (List.cons.inj hchars).1.symm
    refine ⟨rfl, fun hn => ?_⟩
    rw [scan, if_neg (by decide), if_neg (by decide), if_neg (by decide), if_neg (by decide), if_pos rfl] at h
    split at h
    · next inside rest hlast =>
      cases h
      exact lastQuote?_rest hn hlast
    · cases h
  | _ => cases hl

theorem not_mem_of_scan {d c : Char} {cs : List Char} (hd : d ∉ c :: cs) : d ∉ (scan c cs).2 := fun hm =>
  hd (chars_append_scan c cs ▸ List.mem_append_right _ hm)

theorem scanned_tokensFrom (column : Nat) (cs : List Char) : ∀ t ∈ tokensFrom column cs, t.lexeme.Scanned := by
  fun_induction tokensFrom column cs with
  | case1 => nofun
  | case2 column c cs next blanks h ih => exact ih
  | case3 column c cs next l h ih => exact List.forall_mem_cons.mpr ⟨scanned_scan (Prod.ext h rfl), ih⟩

theorem texts_of_no_quote (column : Nat) (cs : List Char) (h : '"' ∉ cs) :
    (tokensFrom column cs).countP (·.lexeme.kind = .text) = 0 := by
  fun_induction tokensFrom column cs with
  | case1 => rfl
  | case2 column c cs next blanks hscan ih => exact ih (not_mem_of_scan h)
  | case3 column c cs next l hscan ih =>
    rw [List.countP_cons, ih (not_mem_of_scan h), if_neg]
    rw [decide_eq_true_iff]
    rintro hl
    exact h ((quotes_of_scan (Prod.ext hscan rfl) hl).1 ▸ List.mem_cons_self)

theorem texts_tokensFrom (column : Nat) (cs : List Char) (hn : '\n' ∉ cs) :
    (tokensFrom column cs).countP (·.lexeme.kind = .text) ≤ 1 := by
  fun_induction tokensFrom column cs with
  | case1 => exact Nat.zero_le _
  | case2 column c cs next blanks h ih => exact ih (not_mem_of_scan hn)
  | case3 column c cs next l h ih =>
    rw [List.countP_cons]
    split
    · next hl =>
      have hrest := (quotes_of_scan (Prod.ext h rfl) (of_decide_eq_true hl)).2 fun hm => hn (List.mem_cons_of_mem _ hm)
      rw [texts_of_no_quote _ _ hrest]
    · exact ih (not_mem_of_scan hn)

end JossLang
