import JossLang.Proofs.SessionAgreement

/-!
# Lines with a number in front

A line that is read as a command is read, behind the number of a step and a
blank, as that step with the same command: `parse_numbered`. The lexemes behind
the number are those of the line by itself, wherever it starts.
-/

namespace JossLang

/-! ## Comments -/

theorem getLast?_trimEnd_append (front : List Char) {cs : List Char} (h : trimEnd cs ≠ []) :
    (trimEnd (front ++ cs)).getLast? = (trimEnd cs).getLast? := by
  have hne : cs.reverse.dropWhile isBlank ≠ [] := fun hnil => h (by rw [trimEnd, hnil, List.reverse_nil])
  obtain ⟨d, ds, hd⟩ := List.exists_cons_of_ne_nil hne
  rw [trimEnd, trimEnd, List.reverse_append, List.dropWhile_append, hd]
  simp

theorem head?_trimEnd {c : Char} (hc : isBlank c = false) (cs : List Char) : (trimEnd (c :: cs)).head? = some c := by
  rw [trimEnd, List.reverse_cons, List.dropWhile_append]
  split
  · simp [hc]
  · simp

theorem trim_ne_nil {text : List Char} (h : isComment text = false) : trim text ≠ [] := by
  rintro hnil
  rw [isComment, hnil] at h
  cases h

theorem isComment_numbered {text : List Char} (h : isComment text = false) {literal : List Char} (hl : Numeral literal) :
    isComment (literal ++ ' ' :: text) = false := by
  have htrim := trim_ne_nil h
  have hlast : (trim text).getLast? ≠ some '*' := by
    rintro hlast
    rw [isComment, hlast] at h
    simp at h
  have hfirst : ∃ c cs, literal = c :: cs ∧ isBlank c = false ∧ c ≠ '*' := by
    have hne : literal ≠ [] := by cases hl <;> simp_all
    obtain ⟨c, cs, rfl⟩ := List.exists_cons_of_ne_nil hne
    rcases hl.digit_or_point List.mem_cons_self with hc | rfl
    · exact ⟨c, cs, rfl, not_blank_of_isDigit hc, ne_of_isDigit hc (by decide)⟩
    · exact ⟨'.', cs, rfl, by decide, by decide⟩
  obtain ⟨c, cs, rfl, hc, hstar⟩ := hfirst
  have hbody : trim (c :: cs ++ ' ' :: text) = trimEnd (c :: (cs ++ ' ' :: text)) := by
    rw [trim, trimStart_eq (by rintro _ ⟨⟩; exact hc), List.cons_append]
  have hend : (trimEnd (c :: (cs ++ ' ' :: text))).getLast? = (trim text).getLast? := by
    have hsplit : c :: (cs ++ ' ' :: text) = (c :: (cs ++ ' ' :: text.takeWhile isBlank)) ++ trimStart text := by
      simp [trimStart, List.takeWhile_append_dropWhile]
    rw [hsplit]
    exact getLast?_trimEnd_append _ htrim
  have hhead := head?_trimEnd hc (cs ++ ' ' :: text)
  rw [isComment, hbody, hhead, hend]
  generalize trimEnd (c :: (cs ++ ' ' :: text)) = body at hhead
  cases body with
  | nil => cases hhead
  | cons _ _ => simp [hstar, hlast]

/-! ## Lexemes -/

theorem lexemes_tokensFrom (i j : Nat) (cs : List Char) :
    (tokensFrom i cs).map (·.lexeme) = (tokensFrom j cs).map (·.lexeme) := by
  fun_induction tokensFrom i cs generalizing j with
  | case1 => rw [tokensFrom_nil]
  | case2 i c cs next blanks h ih =>
    rw [tokensFrom]
    simp only [h]
    exact ih _
  | case3 i c cs next l h ih =>
    obtain ⟨next', hnext⟩ := tokensFrom_lexeme j (Prod.ext h rfl)
    rw [hnext, List.map_cons, List.map_cons, ih next']

theorem lexemes_trimStart (i j : Nat) (cs : List Char) :
    (tokensFrom i (trimStart cs)).map (·.lexeme) = (tokensFrom j cs).map (·.lexeme) := by
  cases cs with
  | nil => rw [trimStart, List.dropWhile_nil, tokensFrom_nil, tokensFrom_nil]
  | cons c cs =>
    by_cases hc : isBlank c
    · obtain ⟨next, hnext⟩ : ∃ next, tokensFrom j (c :: cs) = tokensFrom next (cs.dropWhile isBlank) := tokensFrom_blank j hc
      rw [hnext, trimStart, List.dropWhile_cons_of_pos hc]
      exact lexemes_tokensFrom _ _ _
    · rw [trimStart, List.dropWhile_cons_of_neg hc]
      exact lexemes_tokensFrom _ _ _

theorem scan_not_blank {c : Char} (h : isBlank c = false) (cs : List Char) : ∃ l rest, scan c cs = (.lexeme l, rest) := by
  have hsign : ∃ l rest, scanSign c cs = (.lexeme l, rest) := by
    unfold scanSign
    split <;> exact ⟨_, _, rfl⟩
  unfold scan
  rw [if_neg (by simp [h])]
  repeat' split
  all_goals first | exact ⟨_, _, rfl⟩ | exact hsign

theorem trimStart_of_line {text : List Char} (h : isComment text = false) :
    ∃ c ds l rest ls, trimStart text = c :: ds ∧ isBlank c = false ∧ scan c ds = (.lexeme l, rest) ∧
      (tokensOf text).map (·.lexeme) = l :: ls := by
  have hstart : trimStart text ≠ [] := fun hnil => trim_ne_nil h (by rw [trim, hnil]; rfl)
  obtain ⟨c, cs, hcs⟩ := List.exists_cons_of_ne_nil hstart
  have hc : isBlank c = false := by
    have := List.head?_dropWhile_not isBlank text
    rw [show text.dropWhile isBlank = c :: cs from hcs] at this
    simpa using this
  obtain ⟨l, rest, hscan⟩ := scan_not_blank hc cs
  obtain ⟨next, hnext⟩ := tokensFrom_lexeme 1 hscan
  have hlexemes := lexemes_trimStart 1 1 text
  rw [hcs, hnext, List.map_cons] at hlexemes
  rw [tokensOf_eq h]
  exact ⟨c, cs, l, rest, _, hcs, hc, hscan, hlexemes.symm⟩

theorem tokensOf_ne_nil {text : List Char} (h : isComment text = false) : tokensOf text ≠ [] := by
  obtain ⟨_, _, _, _, _, -, -, -, hlexemes⟩ := trimStart_of_line h
  rintro hnil
  rw [hnil] at hlexemes
  cases hlexemes

/-- Behind a number and a blank, a line has the lexemes that it has by itself. -/
theorem tokensOf_numbered {text : List Char} (h : isComment text = false) {literal : String} (hl : Numeral literal.toList) :
    ∃ column ts, tokensOf (literal.toList ++ ' ' :: text) = ⟨.number literal, column⟩ :: ts ∧
      (tokensOf text).map (·.lexeme) = ts.map (·.lexeme) := by
  have hends : (Lexeme.number literal).EndsBefore (' ' :: text) := Lexeme.endsBefore_blank (by nofun) text
  obtain ⟨c, ds, hcs, -, hscan⟩ := scan_lexeme (l := .number literal) hl hends
  obtain ⟨next, hnext⟩ := tokensFrom_lexeme 1 hscan
  obtain ⟨next', hnext'⟩ : ∃ next', tokensFrom next (' ' :: text) = tokensFrom next' (text.dropWhile isBlank) :=
    tokensFrom_blank next (by decide)
  have hcs : literal.toList ++ ' ' :: text = c :: ds := hcs
  refine ⟨1, tokensFrom next' (trimStart text), ?_, ?_⟩
  · rw [tokensOf_eq (isComment_numbered h hl), hcs, hnext, hnext', trimStart]
  · rw [tokensOf_eq h, lexemes_trimStart]

/-! ## Reading -/

def anywhere (_ _ : Location) : Prop := True

def Rereading.numbered (src src' : Source) : Rereading where
  src := src
  src' := src'
  columns _ _ := True
  place := anywhere
  placed _ _ _ := trivial

theorem Rereading.streams_of_lexemes {R : Rereading} (hR : ∀ i j, R.columns i j) {text : List Char} {s' : Stream}
    (hrest : (tokensOf text).map (·.lexeme) = s'.rest.map (·.lexeme)) (hfinish : s'.finish.lexeme = .finish) :
    R.Streams (Stream.ofLine text) s' := by
  have hlexemes : List.Forall₂ (fun t t' : Token => t.lexeme = t'.lexeme) (tokensOf text) s'.rest := by
    have hmap : List.Forall₂ Eq ((tokensOf text).map (·.lexeme)) (s'.rest.map (·.lexeme)) := by
      rw [List.forall₂_eq_eq_eq]
      exact hrest
    exact List.forall₂_map_right_iff.mp (List.forall₂_map_left_iff.mp hmap)
  refine ⟨(forall₂_mem hlexemes).imp fun t t' ⟨ht, hl⟩ => ⟨hl, hR _ _, fun x hx => ?_, fun x hx => ?_⟩,
    hfinish.symm, hR _ _, nofun, nofun⟩
  · exact sound_tokensOf ht hx nofun
  · exact sound_tokensOf ht hx nofun

theorem Rereading.agree_numbered (src src' : Source) (pos : Location) (n : StepNumber) :
    (numbered src src').Agree (do
        let command ← readCommand src
        discard (Reader.expectKind .endOfCommand .period)
        return Line.direct command) (do
        let command ← readCommand src'
        discard (Reader.expectKind .endOfCommand .period)
        return Line.stored pos n command)
      fun u u' => ∃ c c', u = .direct c ∧ u' = .stored pos n c' ∧ c.Alike anywhere c' :=
  agree_readCommand.bind fun c c' hc => (agree_expectKind _ _).discard.bind fun _ _ _ =>
    agree_pure ⟨c, c', rfl, rfl, hc⟩

theorem readLine_direct {src : Source} {text : List Char} (h : isComment text = false) {c : Command} {s : Stream}
    (hrun : (readLine src).run (Stream.ofLine text) = (.ok (.direct c), s)) :
    (readLine src).run (Stream.ofLine text) = (do
      let command ← readCommand src
      discard (Reader.expectKind .endOfCommand .period)
      return Line.direct command : Reader Line).run (Stream.ofLine text) := by
  have hpeek : Reader.peek.run (Stream.ofLine text) = (.ok (Stream.ofLine text).peek, Stream.ofLine text) := rfl
  have hmem : (Stream.ofLine text).peek ∈ tokensOf text := by
    obtain ⟨t, ts, ht⟩ := List.exists_cons_of_ne_nil (tokensOf_ne_nil h)
    rw [Stream.peek, Stream.ofLine, ht]
    exact List.mem_cons_self
  rw [readLine, run_bind, hpeek] at hrun ⊢
  dsimp only at hrun ⊢
  cases hl : (Stream.ofLine text).peek.lexeme with
  | finish => exact (sound_tokensOf hmem hl (by decide)).elim
  | number literal =>
    rw [hl] at hrun
    have hstored : Ensures (fun _ => True) (do
        discard Reader.next
        let number ← liftNumber literal (StepNumber.ofLiteral literal)
        let command ← readCommand src
        discard (Reader.expectKind .endOfCommand .period)
        return Line.stored (src.at (Stream.ofLine text).peek) number command) (fun u _ => ∀ c, u ≠ .direct c) := by
      have hany : ∀ {α : Type} (r : Reader α), Ensures (fun _ => True) r fun _ _ => True := fun _ _ _ _ _ _ => trivial
      exact (hany _).bind fun _ => (hany _).bind fun _ => (hany _).bind fun _ => (hany _).bind fun _ =>
        ensures_pure fun _ _ _ h => by cases h
    exact absurd rfl (hstored _ _ _ trivial hrun c)
  | _ => rfl

/-- **Numbers.** Behind the number of a step, a line is read as that step with the command that it is by itself. -/
theorem parse_numbered {src : Source} (h : isComment src.text = false) {c : Command} (hread : Line.parse src = .ok (.direct c))
    {literal : String} (hl : Numeral literal.toList) {n : StepNumber} (hn : StepNumber.ofLiteral literal = .ok n)
    {src' : Source} (htext : src'.text = literal.toList ++ ' ' :: src.text) :
    ∃ pos c', c.Alike anywhere c' ∧ Line.parse src' = .ok (.stored pos n c') := by
  obtain ⟨column, ts, htokens, hrest⟩ := tokensOf_numbered h hl
  let s₁ : Stream := Stream.ofLine src'.text
  have hs₁ : s₁.rest = ⟨.number literal, column⟩ :: ts := by rw [← htokens, ← htext]; rfl
  have hpeek : s₁.peek = ⟨.number literal, column⟩ := by rw [Stream.peek, hs₁]; rfl
  have hnext : s₁.next.2.rest = ts := by rw [Stream.next, hs₁]; rfl
  have hrun : (readLine src').run s₁ = (do
      let command ← readCommand src'
      discard (Reader.expectKind .endOfCommand .period)
      return Line.stored (src'.at s₁.peek) n command : Reader Line).run s₁.next.2 := by
    have hdiscard : (discard Reader.next).run s₁ = (.ok (), s₁.next.2) := rfl
    rw [readLine, run_bind, show Reader.peek.run s₁ = (.ok s₁.peek, s₁) from rfl]
    dsimp only
    rw [show s₁.peek.lexeme = .number literal by rw [hpeek]]
    dsimp only
    rw [run_bind, hdiscard, hn]
    rfl
  have hdirect : (Line.read src) = (.ok (.direct c), (Line.read src).2) := Prod.ext hread rfl
  have hstreams : (Rereading.numbered src src').Streams (Stream.ofLine src.text) s₁.next.2 :=
    Rereading.streams_of_lexemes (fun _ _ => trivial) (hnext ▸ hrest) rfl
  have ho := Rereading.agree_numbered src src' (src'.at s₁.peek) n _ _ hstreams
  rw [← readLine_direct h hdirect, ← hrun, show (readLine src).run (Stream.ofLine src.text) = _ from hdirect] at ho
  generalize hr : (readLine src').run s₁ = r at ho
  cases ho with
  | ok hu _ =>
    obtain ⟨_, c', ⟨⟩, rfl, hc⟩ := hu
    exact ⟨_, c', hc, by rw [Line.parse, Line.read, hr]⟩

end JossLang
