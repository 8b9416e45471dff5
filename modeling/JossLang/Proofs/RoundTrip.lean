import JossLang.Proofs.LineImage

/-!
# Reading what is written

A line that was read is written in canonical form, and reading that again gives
the same line: `Line.parse_canonical`.
-/

namespace JossLang

def Line.Canonical (u : Line) (text : List Char) : Prop := ∃ ls, u.Writes ls ∧ Lays ls text

theorem Line.Writes.shape {u : Line} (hu : u.NamesItself) {l : Lexeme} {ls : List Lexeme} (hw : u.Writes (l :: ls)) :
    l ≠ .operator .mul ∧ ∃ front, l :: ls = front ++ [.period] := by
  have hcommand : ∀ {c : Command} {lc : List Lexeme}, c.NamesItself → c.Writes lc →
      ∃ kw front, lc = .keyword kw :: (front ++ [.period]) := by
    intro c lc hc hwc
    obtain ⟨_, rfl, ⟨kw, front, rfl⟩, -⟩ := reads_command ⟨"", 0, []⟩ hc hwc
    exact ⟨kw, front, rfl⟩
  cases u with
  | direct c =>
    unfold Line.Writes at hw
    split at hw
    · cases hw
    · next h =>
      cases h
      obtain ⟨kw, front, hls⟩ := hcommand hu hw
      cases hls
      exact ⟨by simp, .keyword kw :: front, rfl⟩
    · next h => cases h
  | stored pos number c =>
    obtain ⟨lc, hwc, hls⟩ := hw
    obtain ⟨kw, front, rfl⟩ := hcommand hu.2 hwc
    cases hls
    exact ⟨by simp, .number number.spelling :: .keyword kw :: front, rfl⟩

theorem Line.Writes.blank {u : Line} (hw : u.Writes []) : ∃ p q, u = .direct ⟨p, .blank q, none⟩ := by
  unfold Line.Writes at hw
  split at hw
  · exact ⟨_, _, rfl⟩
  · obtain ⟨lv, lg, -, -, hls⟩ := hw
    simp at hls
  · obtain ⟨_, -, hls⟩ := hw
    cases hls

theorem readLine_atEnd (src : Source) {s : Stream} (hs : s.AtEnd) :
    ∃ p, (readLine src).run s = (.ok (.direct ⟨p, .blank p, none⟩), s) := by
  have hpeek : Reader.peek.run s = (.ok s.peek, s) := rfl
  rw [readLine, run_bind, hpeek]
  dsimp only
  rw [hs.peek_eq]
  exact ⟨_, rfl⟩

theorem Line.Canonical.parse {u : Line} (hu : u.NamesItself) (src : Source) (h : u.Canonical src.text) :
    ∃ u', Line.parse src = .ok u' ∧ u'.bare = u.bare := by
  obtain ⟨ls, hw, hl⟩ := h
  cases ls with
  | nil =>
    obtain ⟨p, hp⟩ := readLine_atEnd src (s := Stream.ofLine src.text) ⟨hl.tokensOf_eq_nil, rfl⟩
    obtain ⟨p', q, rfl⟩ := hw.blank
    exact ⟨.direct ⟨p, .blank p, none⟩, by rw [Line.parse, Line.read, hp], rfl⟩
  | cons l ls =>
    obtain ⟨hmul, front, hfront⟩ := hw.shape hu
    have hlexemes : (Stream.ofLine src.text).lexemes = l :: ls := hl.lexemes_tokensOf hmul hfront
    obtain ⟨u', s', hrun, hbare, -⟩ := reads_line src hu hw (List.cons_ne_nil _ _) _ hlexemes
    exact ⟨u', by rw [Line.parse, Line.read, hrun], hbare⟩

theorem clean_ofLine {cs : List Char} (hn : '\n' ∉ cs) : (Stream.ofLine cs).Clean 1 := by
  have htokens : tokensOf cs = [] ∨ tokensOf cs = tokensFrom 1 cs := by
    rw [tokensOf]
    split
    · exact .inl rfl
    · exact .inr rfl
  refine ⟨rfl, ?_, ?_⟩
  · show ∀ t ∈ tokensOf cs, t.lexeme.Scanned
    rcases htokens with h | h
    · rw [h]; exact List.forall_mem_nil _
    · rw [h]; exact scanned_tokensFrom 1 cs
  · show (tokensOf cs).countP (·.lexeme.kind = .text) ≤ 1
    rcases htokens with h | h
    · rw [h]; exact Nat.zero_le 1
    · rw [h]; exact texts_tokensFrom 1 cs hn

theorem sayable_of_parse {src : Source} (hn : '\n' ∉ src.text) {u : Line} (h : Line.parse src = .ok u) :
    u.Sayable 1 := by
  rw [Line.parse, Line.read] at h
  exact ensures_readLine src _ u _ (clean_ofLine hn) (Prod.ext h rfl)

/-- **Round trip.** A line without line breaks that is read has a canonical form without line breaks, and every
canonical form of it is read as the same line, but for places. -/
theorem Line.parse_canonical {src : Source} (hn : '\n' ∉ src.text) {u : Line} (h : Line.parse src = .ok u) :
    (∃ text, '\n' ∉ text ∧ u.Canonical text) ∧
      ∀ src' : Source, u.Canonical src'.text → ∃ u', Line.parse src' = .ok u' ∧ u'.bare = u.bare := by
  obtain ⟨⟨ls, hw, hl⟩, hnames⟩ := sayable_of_parse hn h
  have hlays : Lays ls (spread ls) := lays_spread hl.1 hl.2
  exact ⟨⟨spread ls, line_break_not_mem_spread hl.1, ls, hw, hlays⟩, fun src' hc => hc.parse hnames src'⟩

/-- The call has one index, an equality, and the text has quotes in it. -/
theorem Line.parse_canonical_equality : ∃ u : Line,
    Line.parse ⟨"", 1, "1.1 Type f ( ( ( x = 1 ) ) ) , \"a \"b\"\" if ( y < 2 ) . ".toList⟩ = .ok u ∧
      u.bare = .stored nowhere ⟨"1", "1"⟩ ⟨nowhere,
        .type nowhere [.numeric nowhere (.reference nowhere "f" [.binary nowhere .eq (.reference nowhere "x" [])
          (.number nowhere 1)]), .quoted nowhere "a \"b\""],
        some (.binary nowhere .lt (.reference nowhere "y" []) (.number nowhere 2))⟩ ∧
      (∃ text, '\n' ∉ text ∧ u.Canonical text) ∧
      ∀ src' : Source, u.Canonical src'.text → ∃ u', Line.parse src' = .ok u' ∧ u'.bare = u.bare := by
  let u₀ : Line := .stored nowhere ⟨"1", "1"⟩ ⟨nowhere,
    .type nowhere [.numeric nowhere (.reference nowhere "f" [.binary nowhere .eq (.reference nowhere "x" [])
      (.number nowhere 1)]), .quoted nowhere "a \"b\""],
    some (.binary nowhere .lt (.reference nowhere "y" []) (.number nowhere 2))⟩
  let ls : List Lexeme := .number "1.1" :: .keyword .type ::
    (.name "f" :: boxed (boxed (boxed [.name "x", .operator .eq, .number "1"])) ++ [.comma, .text "a \"b\""] ++
      (.keyword .guard :: boxed [.name "y", .operator .lt, .number "2"] ++ [.period]))
  have hw : u₀.Writes ls :=
    ⟨_, ⟨_, _, ⟨_, _, ⟨_, _, ⟨_, _, rfl, ⟨"1", by decide, rfl⟩, rfl⟩, rfl, rfl⟩, ⟨_, _, rfl, rfl, rfl⟩, rfl⟩,
      ⟨_, ⟨_, _, rfl, ⟨"2", by decide, rfl⟩, rfl⟩, .inl rfl⟩, rfl⟩, by decide⟩
  have hdigit : ∀ c ∈ ['1'], isDigit c := List.forall_mem_singleton.mpr (by decide)
  have hone : Numeral ['1'] := .whole (by decide) hdigit
  have htwo : Numeral ['2'] := .whole (by decide) (List.forall_mem_singleton.mpr (by decide))
  have hstep : Pointed ['1', '.', '1'] ['1'] ['1'] := ⟨rfl, hdigit, by decide, hdigit⟩
  have hf : (Lexeme.name "f").Sound := ⟨by decide, by decide⟩
  have hx : (Lexeme.name "x").Sound := ⟨by decide, by decide⟩
  have hy : (Lexeme.name "y").Sound := ⟨by decide, by decide⟩
  have htext : (Lexeme.text "a \"b\"").Sound := show '\n' ∉ "a \"b\"".toList by decide
  have hs : ∀ l ∈ ls, l.Sound := by
    simp only [ls, boxed, List.cons_append, List.nil_append, List.forall_mem_cons]
    exact ⟨hstep.numeral, trivial, hf, trivial, trivial, trivial, hx, trivial, hone, trivial, trivial, trivial, trivial,
      htext, trivial, trivial, hy, trivial, htwo, trivial, trivial, List.forall_mem_nil _⟩
  have hc : u₀.Canonical "1.1 Type f ( ( ( x = 1 ) ) ) , \"a \"b\"\" if ( y < 2 ) . ".toList :=
    ⟨ls, hw, show Lays ls (spread ls) from lays_spread hs (by decide)⟩
  have hnames : u₀.NamesItself := ⟨by decide, by rintro _ _ _ ⟨⟩⟩
  obtain ⟨u, hu, hbare⟩ := Line.Canonical.parse hnames ⟨"", 1, _⟩ hc
  exact ⟨u, hu, hbare, Line.parse_canonical (by decide) hu⟩

end JossLang
