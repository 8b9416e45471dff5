import JossLang.Proofs.Precedence

/-!
# Iterated arguments

Whether brackets behind a name hold an iterated argument is told from the tree of the first expression in them, and
brackets leave no trace in a tree. So the equality of a loop variable may stand in brackets of its own, and so may the
variable (`LoopHead`). With no bracket right behind the first one, an iterated argument is written as it looks
(`readReference_reduction`).
-/

namespace JossLang

/-! ## Brackets around a phrase -/

inductive Bracketed (ls : List Lexeme) : List Lexeme → Prop where
  | bare : Bracketed ls ls
  | enclosed (b : Bracket) {ms : List Lexeme} : Bracketed ls ms → Bracketed ls (.opening b :: (ms ++ [.closing b]))

/-- The lexemes of `v = start`, in any brackets, with any brackets around `v`. -/
def LoopHead (v : String) (start ls : List Lexeme) : Prop :=
  ∃ left, Bracketed [.name v] left ∧ Bracketed (left ++ .operator .eq :: start) ls

theorem Bracketed.eq_of_head {ls ms : List Lexeme} (h : Bracketed ls ms) (hm : ∀ c, ms.head? ≠ some (.opening c)) :
    ms = ls := by
  cases h with
  | bare => rfl
  | enclosed b _ => exact absurd rfl (hm b)

theorem Bracketed.ne_nil {ls ms : List Lexeme} (h : Bracketed ls ms) (hls : ls ≠ []) : ms ≠ [] := by
  cases h with
  | bare => exact hls
  | enclosed b _ => simp

theorem LoopHead.ne_nil {v : String} {start ls : List Lexeme} (h : LoopHead v start ls) : ls ≠ [] := by
  obtain ⟨left, -, hls⟩ := h
  exact hls.ne_nil (by simp)

theorem LoopHead.bare_iff {v : String} {start ls : List Lexeme} (h : LoopHead v start ls) :
    ls = .name v :: .operator .eq :: start ↔ ∀ c, ls.head? ≠ some (.opening c) := by
  obtain ⟨left, hleft, hls⟩ := h
  constructor
  · intro heq c
    simp [heq]
  · intro hopen
    have heq := hls.eq_of_head hopen
    subst heq
    have hname : left = [.name v] := by
      refine hleft.eq_of_head fun c hc => hopen c ?_
      cases left with
      | nil => simp at hc
      | cons l ls => simpa using hc
    rw [hname]
    rfl

/-! ## Trees without a trace -/

theorem IsChain.operands {o : Operator} {lhs rhs : Chain} (h : IsChain (.node o lhs rhs)) : IsChain lhs ∧ IsChain rhs := by
  cases h with
  | mk ho ha =>
    obtain ⟨-, -, hl, hr⟩ := ho
    rw [OperatorTree.atoms_node, List.forall_mem_append] at ha
    exact ⟨.mk hl ha.1, .mk hr ha.2⟩

theorem loopStart?_eq_some {e start : Expr} {v : String} (h : loopStart? e = some (v, start)) :
    ∃ pos pos', e = .binary pos .eq (.reference pos' v []) start := by
  unfold loopStart? at h
  split at h
  · cases h
    exact ⟨_, _, rfl⟩
  · cases h

mutual

theorem IsAtom.bracketed_name {v : String} {a : Phrase} : IsAtom a → ∀ {pos}, a.expr = .reference pos v [] →
    Bracketed [.name v] a.lexemes
  | .number _ _, _, h => by cases h
  | .name _ _, _, h => by
    cases h
    exact .bare
  | .signed _ _ _, _, h => by cases h
  | .group b ht, _, h => .enclosed b (ht.bracketed_name h)
  | .conditional _ _ _ _ _, _, h => by cases h
  | .call _ _ _ init last _, _, h => by simp at h
  | .reduction _ _ _ _ _ _ _ _ _ _, _, h => by cases h

theorem IsChain.bracketed_name {v : String} {t : Chain} : IsChain t → ∀ {pos}, t.expr = .reference pos v [] →
    Bracketed [.name v] t.lexemes
  | .mk (t := .atom a) _ ha, _, h => by
    have hatom := (ha a (by simp)).bracketed_name h
    simpa using hatom
  | .mk (t := .node _ _ _) _ _, _, h => by cases h

end

mutual

theorem IsAtom.loopHead {v : String} {start : Expr} {a : Phrase} : IsAtom a → loopStart? a.expr = some (v, start) →
    ∃ t : Chain, IsChain t ∧ t.expr = start ∧ LoopHead v t.lexemes a.lexemes
  | .number _ _, h => by cases h
  | .name _ _, h => by cases h
  | .signed _ ho _, h => by rcases ho with rfl | rfl <;> cases h
  | .group b ht, h => by
    obtain ⟨t, hchain, hexpr, left, hleft, hls⟩ := ht.loopHead h
    exact ⟨t, hchain, hexpr, left, hleft, .enclosed b hls⟩
  | .conditional _ _ _ _ _, h => by cases h
  | .call _ _ _ _ _ _, h => by cases h
  | .reduction _ _ _ _ _ _ _ _ _ _, h => by cases h

theorem IsChain.loopHead {v : String} {start : Expr} {t : Chain} : IsChain t → loopStart? t.expr = some (v, start) →
    ∃ u : Chain, IsChain u ∧ u.expr = start ∧ LoopHead v u.lexemes t.lexemes
  | .mk (t := .atom a) _ ha, h => by
    have hatom := (ha a (by simp)).loopHead h
    simpa using hatom
  | .mk (t := .node o lhs rhs) ho ha, h => by
    obtain ⟨hlhs, hrhs⟩ := IsChain.operands (.mk ho ha)
    obtain ⟨pos, pos', hexpr⟩ := loopStart?_eq_some h
    obtain ⟨-, rfl, hleft, hright⟩ := Expr.binary.inj hexpr
    exact ⟨rhs, hrhs, hright, lhs.lexemes, hlhs.bracketed_name hleft, by simpa using Bracketed.bare⟩

end

/-! ## References -/

theorem commaed_append {α : Type} (f : α → List Lexeme) (init : List α) (last : α) :
    commaed (init.map f) ++ f last = [.comma].intercalate ((init ++ [last]).map f) := by
  induction init with
  | nil => simp [commaed, List.intercalate]
  | cons a init ih =>
    rw [List.map_cons, commaed, List.flatMap_cons, ← commaed, List.append_assoc, ih]
    cases init <;> simp [List.intercalate]

theorem Stream.Takes.lexemes {s s' : Stream} {ls : List Lexeme} (h : s.Takes ls s') : s.lexemes = ls ++ s'.lexemes := by
  obtain ⟨-, ts, rfl, hrest, -⟩ := h
  simp [Stream.lexemes, hrest]

theorem TermPhrase.lexemes_append : ∀ p : TermPhrase, ∃ ls, p.lexemes = p.head.lexemes ++ ls
  | ⟨_, _, none⟩ => ⟨[], by simp [lexemes]⟩
  | ⟨_, _, some _⟩ => ⟨_, rfl⟩

theorem third_lexeme {name : String} {b : Bracket} {p : TermPhrase} (hne : p.head.lexemes ≠ []) (ps : List TermPhrase)
    (ls : List Lexeme) :
    (.name name :: .opening b :: ([.comma].intercalate ((p :: ps).map (·.lexemes)) ++ ls))[2]? = p.head.lexemes.head? := by
  obtain ⟨ms, hp⟩ := p.lexemes_append
  obtain ⟨l, hd, hhead⟩ := List.exists_cons_of_ne_nil hne
  rw [hhead] at hp ⊢
  cases ps <;> simp [List.intercalate, hp]

theorem readReference_peek {src : Source} {depth : Nat} {s s' : Stream} {e : Expr} (hs : s.Ends)
    (h : (readReference src depth).run s = (.ok e, s')) : ∃ name, s.peek.lexeme = .name name := by
  cases depth with
  | zero => cases h
  | succ depth =>
    rw [readReference] at h
    obtain ⟨name, _, _, htake, _⟩ := expectName_bind_ok hs h
    exact ⟨name, (s.peek_of_cons htake.lexemes).1⟩

/-- **Iterated arguments.** What is read as one stands in brackets of one kind behind its name: terms with commas between
them, a colon, and a body. The first term begins with the loop variable and its equality, in any brackets, and without
any just when no bracket opens right behind the first one. -/
theorem readReference_reduction {src : Source} {depth : Nat} {s s' : Stream} {pos : Location} {name v : String}
    {range : Range} {body : Expr} (hs : s.Ends)
    (h : (readReference src depth).run s = (.ok (.reduction pos name v range body), s')) :
    ∃ (b : Bracket) (p : TermPhrase) (ps : List TermPhrase) (start t : Chain),
      s.Takes (.name name :: .opening b ::
        ([.comma].intercalate ((p :: ps).map (·.lexemes)) ++ .colon :: (t.lexemes ++ [.closing b]))) s' ∧
      (∀ q ∈ p :: ps, ∀ u ∈ q.chains, IsChain u) ∧ IsChain start ∧ IsChain t ∧
      range.terms = (p :: ps).map (·.term) ∧ start.expr = p.start ∧ (∀ q ∈ ps, q.start = q.head.expr) ∧ t.expr = body ∧
      LoopHead v start.lexemes p.head.lexemes ∧
      (p.head.lexemes = .name v :: .operator .eq :: start.lexemes ↔ ∀ c, s.lexemes[2]? ≠ some (.opening c)) := by
  obtain ⟨name', hpeek⟩ := readReference_peek hs h
  obtain ⟨a, ha, hexpr, htake⟩ := (readPhrases src depth).reference hs h
  cases ha with
  | reduction _ _ _ _ b init last hv hp hb =>
    cases hexpr
    obtain ⟨p, ps, hps⟩ : ∃ p ps, init ++ [last] = p :: ps :=
      List.exists_cons_of_ne_nil (List.append_ne_nil_of_right_ne_nil _ (List.cons_ne_nil _ _))
    rw [← List.append_assoc, commaed_append, hps] at htake
    rw [hps] at hv hp
    obtain ⟨hstart, hrest⟩ := hv
    obtain ⟨start, hchain, hexpr, hhead⟩ := (hp p (by simp) p.head p.head_mem_chains).loopHead hstart
    refine ⟨b, p, ps, start, _, htake, hp, hchain, hb, by simp [Range.terms, hps], hexpr, hrest, rfl, hhead, ?_⟩
    rw [htake.lexemes, List.cons_append, List.cons_append, List.append_assoc, third_lexeme hhead.ne_nil]
    exact hhead.bare_iff
  | group b ht =>
    rw [(s.peek_of_cons htake.lexemes).1] at hpeek
    cases hpeek
  | _ => cases hexpr

def Expr.isReduction : Expr → Bool
  | .reduction _ _ _ _ _ => true
  | _ => false

theorem readsReduction_of_any {r : Except ParseError Expr × Stream} (h : r.1.toOption.any Expr.isReduction = true) :
    ∃ pos name v range body, r = (.ok (.reduction pos name v range body), r.2) := by
  obtain ⟨_ | e, s⟩ := r
  · cases h
  · cases e with
    | reduction => exact ⟨_, _, _, _, _, rfl⟩
    | _ => cases h

/-- Loop variables without brackets: a stepped term whose parts are in brackets, and a single one. -/
theorem readReference_reduction_bare :
    let s := Stream.ofLine "f[i = (x)(2)(5), y(1): i*i]".toList
    s.Ends ∧ ∃ pos name v range body s',
      (readReference ⟨"", 1, []⟩ 40).run s = (.ok (.reduction pos name v range body), s') ∧ s'.lexemes = [] ∧
      ∃ (b : Bracket) (p : TermPhrase) (ps : List TermPhrase) (start t : Chain),
        s.Takes (.name name :: .opening b ::
          ([.comma].intercalate ((p :: ps).map (·.lexemes)) ++ .colon :: (t.lexemes ++ [.closing b]))) s' ∧
        range.terms = (p :: ps).map (·.term) ∧ start.expr = p.start ∧ (∀ q ∈ ps, q.start = q.head.expr) ∧ t.expr = body ∧
        p.head.lexemes = .name v :: .operator .eq :: start.lexemes := by
  intro s
  have hs : s.Ends := rfl
  have hleft : ((readReference ⟨"", 1, []⟩ 40).run s).2.lexemes = [] := by decide +kernel
  obtain ⟨pos, name, v, range, body, hrun⟩ :=
    readsReduction_of_any (r := (readReference ⟨"", 1, []⟩ 40).run s) (by decide +kernel)
  obtain ⟨b, p, ps, start, t, htake, -, -, -, hterms, hstart, hrest, hbody, -, hbare⟩ := readReference_reduction hs hrun
  have hthird : s.lexemes[2]? = some (.name "i") := by decide +kernel
  refine ⟨hs, pos, name, v, range, body, _, hrun, hleft, b, p, ps, start, t, htake, hterms, hstart, hrest, hbody, ?_⟩
  exact hbare.mpr fun c => by simp [hthird]

/-- An equality in brackets is taken for the start of a loop, and so is one with its name in brackets. -/
theorem readReference_bracketed :
    (∀ text ∈ ["f((i = 1)(1)4: i)", "f((i) = 1(1)4: i)"], ∃ pos name v range body s',
      (readReference ⟨"", 1, []⟩ 40).run (Stream.ofLine text.toList) = (.ok (.reduction pos name v range body), s') ∧
        (Stream.ofLine text.toList).lexemes[2]? = some (.opening .round)) ∧
    ¬ ∀ (src : Source) (depth : Nat) (s s' : Stream) (pos : Location) (name v : String) (range : Range) (body : Expr),
      s.Ends → (readReference src depth).run s = (.ok (.reduction pos name v range body), s') →
        s.lexemes[2]? = some (.name v) := by
  have hread : ∀ text ∈ ["f((i = 1)(1)4: i)", "f((i) = 1(1)4: i)"], ∃ pos name v range body s',
      (readReference ⟨"", 1, []⟩ 40).run (Stream.ofLine text.toList) = (.ok (.reduction pos name v range body), s') ∧
        (Stream.ofLine text.toList).lexemes[2]? = some (.opening .round) := by
    intro text htext
    have hany : ((readReference ⟨"", 1, []⟩ 40).run (Stream.ofLine text.toList)).1.toOption.any Expr.isReduction = true ∧
        (Stream.ofLine text.toList).lexemes[2]? = some (.opening .round) := by
      revert text
      decide +kernel
    obtain ⟨pos, name, v, range, body, hrun⟩ := readsReduction_of_any hany.1
    exact ⟨pos, name, v, range, body, _, hrun, hany.2⟩
  refine ⟨hread, fun hall => ?_⟩
  obtain ⟨pos, name, v, range, body, s', hrun, hthird⟩ := hread _ List.mem_cons_self
  have hends : (Stream.ofLine "f((i = 1)(1)4: i)".toList).Ends := rfl
  have hname := hall _ _ _ _ _ _ _ _ _ hends hrun
  rw [hthird] at hname
  cases hname

end JossLang
