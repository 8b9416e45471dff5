import JossLang.Proofs.Phrases
import JossLang.Proofs.Takings

/-!
# Precedence

Operators are read with one token of look-ahead, by two rules that call each other: one takes operators of at least a
given precedence, the other lets a right operand grow as long as tighter operators follow. What is read is the one
ordered tree of the chain that was taken, and the chain ends only where no operator follows: `readExpr_chain`.

The tree that is read so far may become the left operand of the next operator only if that one is not tighter than the
operator at its top. Both rules keep this (`Settled`).
-/

namespace JossLang

/-! ## Trees that grow -/

def Settled (t : Chain) (s : Stream) : Prop := ∀ q ∈ t.top?, s.Stops (q + 1)

/-- What is taken from `s` to `s'` makes a longer chain of the first one. -/
structure Grows (t : Chain) (s : Stream) (t' : Chain) (s' : Stream) : Prop where
  chain : IsChain t'
  taken : ∃ ls, t'.lexemes = t.lexemes ++ ls ∧ s.Takes ls s'
  settled : Settled t' s'

theorem Grows.refl {t : Chain} {s : Stream} (ht : IsChain t) (hs : Settled t s) : Grows t s t s :=
  ⟨ht, ⟨[], by simp, .refl s⟩, hs⟩

theorem Grows.trans {t t' t'' : Chain} {s s' s'' : Stream} (h : Grows t s t' s') (h' : Grows t' s' t'' s'') :
    Grows t s t'' s'' := by
  obtain ⟨ls, hl, htake⟩ := h.taken
  obtain ⟨ms, hm, htake'⟩ := h'.taken
  exact ⟨h'.chain, ⟨ls ++ ms, by rw [hm, hl, List.append_assoc], htake.trans htake'⟩, h'.settled⟩

theorem Grows.ends {t t' : Chain} {s s' : Stream} (h : Grows t s t' s') (hs : s.Ends) : s'.Ends := by
  obtain ⟨ls, -, htake⟩ := h.taken
  exact htake.ends hs

theorem settled_atom (a : Phrase) (s : Stream) : Settled (.atom a) s := nofun

theorem Settled.le_top {t : Chain} {s : Stream} (h : Settled t s) {o : Operator} (ho : s.peek.lexeme = .operator o) :
    ∀ q ∈ t.top?, o.precedence ≤ q := by
  intro q hq
  obtain ⟨o', ho', hlt⟩ := h q hq (by rw [ho]; rfl)
  obtain rfl : o = o' := by simpa [ho] using ho'
  exact Nat.lt_succ_iff.mp hlt

/-! ## Expressions -/

variable (src : Source)

structure ReadPhrases (depth : Nat) : Prop where
  expr : ∀ {s e s'}, s.Ends → (readExpr src depth).run s = (.ok e, s') →
    ∃ t : Chain, IsChain t ∧ t.expr = e ∧ s.Takes t.lexemes s' ∧ s'.Stops 0
  operand : ∀ {s e s'}, s.Ends → (readOperand src depth).run s = (.ok e, s') →
    ∃ a, IsAtom a ∧ a.expr = e ∧ s.Takes a.lexemes s'
  operators : ∀ {t : Chain} {least s e s'}, s.Ends → IsChain t → Settled t s →
    (readOperators src depth t.expr least).run s = (.ok e, s') →
    ∃ t' : Chain, Grows t s t' s' ∧ t'.expr = e ∧ s'.Stops least ∧ (t' = t ∨ ∀ q ∈ t'.top?, least ≤ q)
  tighter : ∀ {t : Chain} {than s e s'}, s.Ends → IsChain t → Settled t s → (∀ q ∈ t.top?, than < q) →
    (readTighter src depth t.expr than).run s = (.ok e, s') →
    ∃ t' : Chain, Grows t s t' s' ∧ t'.expr = e ∧ s'.Stops (than + 1) ∧ ∀ q ∈ t'.top?, than < q
  group : ∀ {pos b s e s'}, s.Ends → ∀ (ps : List BranchPhrase) {t : Chain}, (∀ p ∈ ps, ∀ u ∈ p.chains, IsChain u) →
    IsChain t → (readGroup src depth pos b t.expr (ps.map (·.branch)).reverse).run s = (.ok e, s') →
    ∃ ls, s.Takes ls s' ∧ IsAtom ⟨.opening b :: (ps.flatMap (·.lexemes) ++ (t.lexemes ++ ls)), e⟩
  reference : ∀ {s e s'}, s.Ends → (readReference src depth).run s = (.ok e, s') →
    ∃ a, IsAtom a ∧ a.expr = e ∧ s.Takes a.lexemes s'
  indices : ∀ {pos name b s e s'}, s.Ends → ∀ (init : List Chain) (last : Chain), (∀ t ∈ init ++ [last], IsChain t) →
    (readIndices src depth pos name b ((init ++ [last]).map (·.expr)).reverse).run s = (.ok e, s') →
    ∃ ls, s.Takes ls s' ∧
      IsAtom ⟨.name name :: .opening b :: (commaed (init.map (·.lexemes)) ++ (last.lexemes ++ ls)), e⟩
  iterated : ∀ {pos name b v rangePos start s e s'}, s.Ends → ∀ (init : List TermPhrase) (head : Chain),
    (∀ stride, Iterates v (init ++ [⟨head, start, stride⟩])) → (∀ p ∈ init, ∀ u ∈ p.chains, IsChain u) →
    IsChain head →
    (readIterated src depth pos name b v rangePos start (init.map (·.term)).reverse
      ((init.map (·.head) ++ [head]).map (·.expr)).reverse).run s = (.ok e, s') →
    ∃ ls, s.Takes ls s' ∧
      IsAtom ⟨.name name :: .opening b :: (commaed (init.map (·.lexemes)) ++ (head.lexemes ++ ls)), e⟩
  term : ∀ {head : Chain} {start s term s'}, s.Ends → IsChain head →
    (readTerm src depth start).run s = (.ok term, s') →
    ∃ p : TermPhrase, p.head = head ∧ p.start = start ∧ p.term = term ∧ (∀ u ∈ p.chains, IsChain u) ∧
      ∃ ls, p.lexemes = head.lexemes ++ ls ∧ s.Takes ls s'

theorem readPhrases_zero : ReadPhrases src 0 where
  expr := nofun
  operand := nofun
  operators := nofun
  tighter := nofun
  group := nofun
  reference := nofun
  indices := nofun
  iterated := nofun
  term := nofun

section
variable {src} {depth : Nat} (h : ReadPhrases src depth) {s s' : Stream} {e : Expr} (hs : s.Ends)
include h hs

theorem ReadPhrases.expr_succ (hrun : (readExpr src (depth + 1)).run s = (.ok e, s')) :
    ∃ t : Chain, IsChain t ∧ t.expr = e ∧ s.Takes t.lexemes s' ∧ s'.Stops 0 := by
  rw [readExpr] at hrun
  obtain ⟨e₁, s₁, hrun₁, hrun⟩ := run_bind_ok hrun
  obtain ⟨a, ha, rfl, htake⟩ := h.operand hs hrun₁
  obtain ⟨t, hgrow, rfl, hstops, -⟩ :=
    h.operators (t := .atom a) (htake.ends hs) (isChain_atom ha) (settled_atom a s₁) hrun
  obtain ⟨ls, hl, htake'⟩ := hgrow.taken
  rw [OperatorTree.lexemes_atom] at hl
  exact ⟨t, hgrow.chain, rfl, hl ▸ htake.trans htake', hstops⟩

theorem ReadPhrases.operand_succ (hrun : (readOperand src (depth + 1)).run s = (.ok e, s')) :
    ∃ a, IsAtom a ∧ a.expr = e ∧ s.Takes a.lexemes s' := by
  have hsigned : ∀ o, s.peek.lexeme = .operator o → o = .add ∨ o = .sub → ∀ {e s'},
      (readOperand src depth).run s.next.2 = (.ok e, s') →
      ∃ a, IsAtom a ∧ a.expr = .binary (src.at s.peek) o (.number (src.at s.peek) 0) e ∧ s.Takes a.lexemes s' := by
    intro o ho hsign e s' hrun
    have htake := hs.takes_next ho (by simp)
    obtain ⟨a, ha, rfl, htake'⟩ := h.operand (htake.ends hs) hrun
    exact ⟨_, .signed _ hsign ha, rfl, htake.cons htake'⟩
  rw [readOperand, run_peek_bind] at hrun
  split at hrun
  · next l hl =>
    cases hrun
    exact ⟨_, .number _ _, rfl, hs.takes_next hl (by simp)⟩
  · exact h.reference hs hrun
  · next b hb =>
    rw [run_discard_next_bind] at hrun
    obtain ⟨e₁, s₁, hrun₁, hrun⟩ := run_bind_ok hrun
    have hopen := hs.takes_next hb (by simp)
    obtain ⟨t, ht, rfl, htake, -⟩ := h.expr (hopen.ends hs) hrun₁
    obtain ⟨ls, htake', ha⟩ := h.group (htake.ends (hopen.ends hs)) [] nofun ht hrun
    exact ⟨_, ha, rfl, hopen.cons (htake.trans htake')⟩
  · next hsub =>
    rw [run_discard_next_bind] at hrun
    obtain ⟨e₁, s₁, hrun₁, hrun⟩ := run_bind_ok hrun
    cases hrun
    exact hsigned .sub hsub (.inr rfl) hrun₁
  · next hadd =>
    rw [run_discard_next_bind] at hrun
    obtain ⟨e₁, s₁, hrun₁, hrun⟩ := run_bind_ok hrun
    cases hrun
    exact hsigned .add hadd (.inl rfl) hrun₁
  · cases hrun

theorem ReadPhrases.operators_succ {t : Chain} {least : Nat} (ht : IsChain t) (hsettled : Settled t s)
    (hrun : (readOperators src (depth + 1) t.expr least).run s = (.ok e, s')) :
    ∃ t' : Chain, Grows t s t' s' ∧ t'.expr = e ∧ s'.Stops least ∧ (t' = t ∨ ∀ q ∈ t'.top?, least ≤ q) := by
  rw [readOperators] at hrun
  rcases nextPrecedence_bind_ok hrun with ⟨hkind, hrun⟩ | ⟨o, ho, hrun⟩
  · cases hrun
    exact ⟨t, .refl ht hsettled, rfl, Stream.stops_of_not_operator hkind, .inl rfl⟩
  · dsimp only at hrun
    split at hrun
    · next hlt =>
      cases hrun
      exact ⟨t, .refl ht hsettled, rfl, Stream.stops_of_lt ho hlt, .inl rfl⟩
    · next hle =>
      rw [run_discard_next_bind] at hrun
      obtain ⟨e₁, s₁, hrun₁, hrun⟩ := run_bind_ok hrun
      obtain ⟨e₂, s₂, hrun₂, hrun⟩ := run_bind_ok hrun
      have hop := hs.takes_next ho (by simp)
      obtain ⟨a, ha, rfl, hatom⟩ := h.operand (hop.ends hs) hrun₁
      obtain ⟨rhs, hgrow, rfl, hstops, htight⟩ := h.tighter (t := .atom a) (hatom.ends (hop.ends hs))
        (isChain_atom ha) (settled_atom a s₁) nofun hrun₂
      obtain ⟨ls, hl, htake⟩ := hgrow.taken
      -- tighter operators have gone into the right operand, so the next one may group to the left
      have hnode : Grows t s (.node o t rhs) s₂ := by
        refine ⟨ht.node hgrow.chain (hsettled.le_top ho) htight, ⟨.operator o :: rhs.lexemes, by simp, ?_⟩, ?_⟩
        · rw [hl, OperatorTree.lexemes_atom]
          exact hop.cons (hatom.trans htake)
        · rintro q ⟨⟩
          exact hstops
      obtain ⟨t', hgrow', rfl, hstops', htop⟩ := h.operators (hnode.ends hs) hnode.chain hnode.settled hrun
      refine ⟨t', hnode.trans hgrow', rfl, hstops', .inr ?_⟩
      rcases htop with rfl | htop
      · rintro q ⟨⟩
        exact Nat.le_of_not_lt hle
      · exact htop

theorem ReadPhrases.tighter_succ {t : Chain} {than : Nat} (ht : IsChain t) (hsettled : Settled t s)
    (htop : ∀ q ∈ t.top?, than < q) (hrun : (readTighter src (depth + 1) t.expr than).run s = (.ok e, s')) :
    ∃ t' : Chain, Grows t s t' s' ∧ t'.expr = e ∧ s'.Stops (than + 1) ∧ ∀ q ∈ t'.top?, than < q := by
  rw [readTighter] at hrun
  rcases nextPrecedence_bind_ok hrun with ⟨hkind, hrun⟩ | ⟨o, ho, hrun⟩
  · cases hrun
    exact ⟨t, .refl ht hsettled, rfl, Stream.stops_of_not_operator hkind, htop⟩
  · dsimp only at hrun
    split at hrun
    · next hlt =>
      obtain ⟨e₁, s₁, hrun₁, hrun⟩ := run_bind_ok hrun
      obtain ⟨t₁, hgrow, rfl, -, hor⟩ := h.operators hs ht hsettled hrun₁
      -- an operand that took operators has one of them at its top, and none was looser than the one that started them
      have htop₁ : ∀ q ∈ t₁.top?, than < q := by
        rcases hor with rfl | hle
        · exact htop
        · exact fun q hq => Nat.lt_of_lt_of_le hlt (hle q hq)
      obtain ⟨t', hgrow', rfl, hstops, htop'⟩ := h.tighter (hgrow.ends hs) hgrow.chain hgrow.settled htop₁ hrun
      exact ⟨t', hgrow.trans hgrow', rfl, hstops, htop'⟩
    · next hle =>
      cases hrun
      exact ⟨t, .refl ht hsettled, rfl, Stream.stops_of_lt ho (Nat.lt_succ_of_le (Nat.le_of_not_lt hle)), htop⟩

theorem ReadPhrases.group_succ {pos : Location} {b : Bracket} (ps : List BranchPhrase) {t : Chain}
    (hp : ∀ p ∈ ps, ∀ u ∈ p.chains, IsChain u) (ht : IsChain t)
    (hrun : (readGroup src (depth + 1) pos b t.expr (ps.map (·.branch)).reverse).run s = (.ok e, s')) :
    ∃ ls, s.Takes ls s' ∧ IsAtom ⟨.opening b :: (ps.flatMap (·.lexemes) ++ (t.lexemes ++ ls)), e⟩ := by
  rw [readGroup] at hrun
  rcases accept_bind_ok hs hrun (by simp) with ⟨s₁, hcolon, hrun⟩ | hrun
  · obtain ⟨e₁, s₂, hrun₁, hrun⟩ := run_bind_ok hrun
    obtain ⟨t₁, ht₁, rfl, htake₁, -⟩ := h.expr (hcolon.ends hs) hrun₁
    have hs₂ := htake₁.ends (hcolon.ends hs)
    obtain ⟨s₃, hsemicolon, hrun⟩ := expectKind_bind_ok hs₂ hrun (fun _ => Lexeme.eq_semicolon) (by simp)
    obtain ⟨e₂, s₄, hrun₂, hrun⟩ := run_bind_ok hrun
    obtain ⟨t₂, ht₂, rfl, htake₂, -⟩ := h.expr (hsemicolon.ends hs₂) hrun₂
    let p : BranchPhrase := ⟨t, t₁⟩
    have hps : ∀ q ∈ ps ++ [p], ∀ u ∈ q.chains, IsChain u :=
      List.forall_mem_append.mpr ⟨hp, List.forall_mem_singleton.mpr (by simp [p, BranchPhrase.chains, ht, ht₁])⟩
    have hbranches : .mk t.expr t₁.expr :: (ps.map (·.branch)).reverse = ((ps ++ [p]).map (·.branch)).reverse := by
      simp [p, BranchPhrase.branch]
    rw [hbranches] at hrun
    obtain ⟨ls, htake, hatom⟩ := h.group (htake₂.ends (hsemicolon.ends hs₂)) (ps ++ [p]) hps ht₂ hrun
    refine ⟨.colon :: (t₁.lexemes ++ .semicolon :: (t₂.lexemes ++ ls)), ?_, ?_⟩
    · exact hcolon.cons (htake₁.trans (hsemicolon.cons (htake₂.trans htake)))
    · simpa [p, BranchPhrase.lexemes] using hatom
  · obtain ⟨s₁, hclose, hrun⟩ := expect_bind_ok hs hrun (by simp)
    cases hrun
    refine ⟨_, hclose, ?_⟩
    by_cases hne : ps = []
    · subst hne
      exact .group b ht
    · simpa [hne] using IsAtom.conditional pos b hne hp ht

theorem ReadPhrases.indices_succ {pos : Location} {name : String} {b : Bracket} (init : List Chain) (last : Chain)
    (hi : ∀ t ∈ init ++ [last], IsChain t)
    (hrun : (readIndices src (depth + 1) pos name b ((init ++ [last]).map (·.expr)).reverse).run s = (.ok e, s')) :
    ∃ ls, s.Takes ls s' ∧
      IsAtom ⟨.name name :: .opening b :: (commaed (init.map (·.lexemes)) ++ (last.lexemes ++ ls)), e⟩ := by
  rw [readIndices] at hrun
  rcases accept_bind_ok hs hrun (by simp) with ⟨s₁, hcomma, hrun⟩ | hrun
  · obtain ⟨e₁, s₂, hrun₁, hrun⟩ := run_bind_ok hrun
    obtain ⟨t, ht, rfl, htake, -⟩ := h.expr (hcomma.ends hs) hrun₁
    have hall : ∀ u ∈ (init ++ [last]) ++ [t], IsChain u :=
      List.forall_mem_append.mpr ⟨hi, List.forall_mem_singleton.mpr ht⟩
    have hexprs : t.expr :: ((init ++ [last]).map (·.expr)).reverse =
        (((init ++ [last]) ++ [t]).map (·.expr)).reverse := by simp
    rw [hexprs] at hrun
    obtain ⟨ls, htake', hatom⟩ := h.indices (htake.ends (hcomma.ends hs)) (init ++ [last]) t hall hrun
    refine ⟨.comma :: (t.lexemes ++ ls), hcomma.cons (htake.trans htake'), ?_⟩
    simpa [commaed] using hatom
  · obtain ⟨s₁, hclose, hrun⟩ := expect_bind_ok hs hrun (by simp)
    cases hrun
    rw [List.reverse_reverse]
    exact ⟨_, hclose, .call pos name b init last hi⟩

theorem ReadPhrases.term_succ {head : Chain} {start : Expr} {term : Term} (hh : IsChain head)
    (hrun : (readTerm src (depth + 1) start).run s = (.ok term, s')) :
    ∃ p : TermPhrase, p.head = head ∧ p.start = start ∧ p.term = term ∧ (∀ u ∈ p.chains, IsChain u) ∧
      ∃ ls, p.lexemes = head.lexemes ++ ls ∧ s.Takes ls s' := by
  rw [readTerm, run_peek_bind] at hrun
  split at hrun
  · next b hb =>
    rw [run_discard_next_bind] at hrun
    have hopen := hs.takes_next hb (by simp)
    obtain ⟨e₁, s₁, hrun₁, hrun⟩ := run_bind_ok hrun
    obtain ⟨step, hstep, rfl, htake, -⟩ := h.expr (hopen.ends hs) hrun₁
    have hs₁ := htake.ends (hopen.ends hs)
    obtain ⟨s₂, hclose, hrun⟩ := expect_bind_ok hs₁ hrun (by simp)
    obtain ⟨e₂, s₃, hrun₂, hrun⟩ := run_bind_ok hrun
    obtain ⟨stop, hstop, rfl, htake', -⟩ := h.expr (hclose.ends hs₁) hrun₂
    cases hrun
    refine ⟨⟨head, start, some ⟨b, step, stop⟩⟩, rfl, rfl, rfl, ?_, _, rfl, ?_⟩
    · simp [TermPhrase.chains, hh, hstep, hstop]
    · exact hopen.cons (htake.trans (hclose.cons htake'))
  · cases hrun
    refine ⟨⟨head, start, none⟩, rfl, rfl, rfl, List.forall_mem_singleton.mpr hh, [], ?_, .refl s⟩
    simp [TermPhrase.lexemes]

theorem ReadPhrases.iterated_succ {pos : Location} {name : String} {b : Bracket} {v : String} {rangePos : Location}
    {start : Expr} (init : List TermPhrase) (head : Chain)
    (hv : ∀ stride, Iterates v (init ++ [⟨head, start, stride⟩])) (hp : ∀ p ∈ init, ∀ u ∈ p.chains, IsChain u)
    (hh : IsChain head)
    (hrun : (readIterated src (depth + 1) pos name b v rangePos start (init.map (·.term)).reverse
      ((init.map (·.head) ++ [head]).map (·.expr)).reverse).run s = (.ok e, s')) :
    ∃ ls, s.Takes ls s' ∧
      IsAtom ⟨.name name :: .opening b :: (commaed (init.map (·.lexemes)) ++ (head.lexemes ++ ls)), e⟩ := by
  rw [readIterated] at hrun
  obtain ⟨term, s₁, hterm, hrun⟩ := run_bind_ok hrun
  obtain ⟨p, hhead, hstart, rfl, hchains, ls, hl, htake⟩ := h.term hs hh hterm
  have hs₁ := htake.ends hs
  have hps : ∀ q ∈ init ++ [p], ∀ u ∈ q.chains, IsChain u :=
    List.forall_mem_append.mpr ⟨hp, List.forall_mem_singleton.mpr hchains⟩
  have hiterates : Iterates v (init ++ [p]) := by
    have := hv p.stride
    rwa [← hhead, ← hstart] at this
  have hterms : p.term :: (init.map (·.term)).reverse = ((init ++ [p]).map (·.term)).reverse := by simp
  rw [hterms] at hrun
  rcases accept_bind_ok hs₁ hrun (by simp) with ⟨s₂, hcomma, hrun⟩ | hrun
  · obtain ⟨e₁, s₃, hrun₁, hrun⟩ := run_bind_ok hrun
    obtain ⟨t, ht, rfl, htake₁, -⟩ := h.expr (hcomma.ends hs₁) hrun₁
    have hexprs : t.expr :: ((init.map (·.head) ++ [head]).map (·.expr)).reverse =
        (((init ++ [p]).map (·.head) ++ [t]).map (·.expr)).reverse := by simp [hhead]
    rw [hexprs] at hrun
    obtain ⟨ms, htake₂, hatom⟩ := h.iterated (htake₁.ends (hcomma.ends hs₁)) (init ++ [p]) t
      (fun _ => hiterates.snoc rfl) hps ht hrun
    refine ⟨ls ++ .comma :: (t.lexemes ++ ms), htake.trans (hcomma.cons (htake₁.trans htake₂)), ?_⟩
    simpa [commaed, hl] using hatom
  · rw [run_peek_bind] at hrun
    dsimp only at hrun
    split at hrun
    · next hcolon =>
      rw [run_discard_next_bind] at hrun
      have hcolon := hs₁.takes_next hcolon (by simp)
      obtain ⟨e₁, s₂, hrun₁, hrun⟩ := run_bind_ok hrun
      obtain ⟨body, hbody, rfl, htake₁, -⟩ := h.expr (hcolon.ends hs₁) hrun₁
      obtain ⟨s₃, hclose, hrun⟩ := expect_bind_ok (htake₁.ends (hcolon.ends hs₁)) hrun (by simp)
      cases hrun
      refine ⟨_, htake.trans (hcolon.cons (htake₁.trans hclose)), ?_⟩
      have := IsAtom.reduction pos rangePos name v b init p hiterates hps hbody
      simpa [hl] using this
    · split at hrun
      · next hplain =>
        obtain ⟨hplain, hclosing⟩ := hplain
        rw [run_discard_next_bind] at hrun
        have hclose := hs₁.takes_next hclosing (by simp)
        cases hrun
        refine ⟨_, htake.trans hclose, ?_⟩
        have hbare : ∀ q ∈ init ++ [p], q.lexemes = q.head.lexemes := by
          intro q hq
          have hterm := List.all_eq_true.mp hplain q.term (List.mem_reverse.mpr (List.mem_map_of_mem hq))
          obtain ⟨head, start, _ | d⟩ := q
          · rfl
          · cases hterm
        have hcall := IsAtom.call_of_terms pos name b hbare hps
        rw [hl, List.append_assoc] at hcall
        rw [List.reverse_reverse]
        exact hhead ▸ hcall
      · cases hrun

theorem ReadPhrases.reference_succ (hrun : (readReference src (depth + 1)).run s = (.ok e, s')) :
    ∃ a, IsAtom a ∧ a.expr = e ∧ s.Takes a.lexemes s' := by
  rw [readReference] at hrun
  obtain ⟨name, t, s₁, htake, hrun⟩ := expectName_bind_ok hs hrun
  have hs₁ := htake.ends hs
  dsimp only at hrun
  rw [run_peek_bind] at hrun
  split at hrun
  · next b hb =>
    rw [run_discard_next_bind] at hrun
    have hopen := hs₁.takes_next hb (by simp)
    obtain ⟨e₁, s₂, hrun₁, hrun⟩ := run_bind_ok hrun
    obtain ⟨first, hfirst, rfl, htake₁, -⟩ := h.expr (hopen.ends hs₁) hrun₁
    have hs₂ := htake₁.ends (hopen.ends hs₁)
    split at hrun
    · next v start hstart =>
      obtain ⟨ls, htake₂, hatom⟩ := h.iterated hs₂ [] first (fun _ => ⟨hstart, nofun⟩) nofun hfirst hrun
      exact ⟨_, hatom, rfl, htake.cons (hopen.cons (htake₁.trans htake₂))⟩
    · obtain ⟨ls, htake₂, hatom⟩ :=
        h.indices hs₂ [] first (List.forall_mem_singleton.mpr hfirst) hrun
      exact ⟨_, hatom, rfl, htake.cons (hopen.cons (htake₁.trans htake₂))⟩
  · cases hrun
    exact ⟨_, .name _ _, rfl, htake⟩

end

theorem readPhrases (src : Source) (depth : Nat) : ReadPhrases src depth := by
  induction depth with
  | zero => exact readPhrases_zero src
  | succ depth ih =>
    exact {
      expr := fun hs => ih.expr_succ hs
      operand := fun hs => ih.operand_succ hs
      operators := fun hs => ih.operators_succ hs
      tighter := fun hs => ih.tighter_succ hs
      group := fun hs => ih.group_succ hs
      reference := fun hs => ih.reference_succ hs
      indices := fun hs => ih.indices_succ hs
      iterated := fun hs => ih.iterated_succ hs
      term := fun hs => ih.term_succ hs }

/-- **Precedence.** An expression takes a chain of atoms that no operator follows, and is the only tree over this chain
in which tighter operators stand below looser ones and those of one precedence group to the left. All brackets in the
chain are closed. -/
theorem readExpr_chain (src : Source) (depth : Nat) {s s' : Stream} {e : Expr} (hs : s.Ends)
    (h : (readExpr src depth).run s = (.ok e, s')) :
    ∃ (a : Phrase) (as : List (Operator × Phrase)), s.Takes (chained a as) s' ∧ s'.peek.lexeme.kind ≠ .operator ∧
      (∀ x ∈ a :: as.map Prod.snd, IsAtom x) ∧ Closed (chained a as) ∧
      ∃ t : Chain, t.Groups a as ∧ t.expr = e ∧ ∀ u : Chain, u.Groups a as → u = t := by
  obtain ⟨t, ht, rfl, htake, hstops⟩ := (readPhrases src depth).expr hs h
  have hclosed := ht.closed
  cases ht with
  | mk ho ha =>
    have hgroups : t.Groups t.first t.rest := ⟨rfl, rfl, ho⟩
    exact ⟨t.first, t.rest, htake, hstops.not_operator, ha, hclosed, t, hgroups, rfl, fun u hu => hu.unique hgroups⟩

/-- A sign, an element, a group, a term that binds tighter, and two differences that group to the left. -/
theorem readExpr_chain_mixed :
    let s := Stream.ofLine "2 - 3*-x[y = 1, 4] - (5 < 6) if".toList
    s.Ends ∧ ∃ e s', (readExpr ⟨"", 1, []⟩ 40).run s = (.ok e, s') ∧ s'.lexemes = [.keyword .guard] ∧
      ∃ (a : Phrase) (as : List (Operator × Phrase)), s.Takes (chained a as) s' ∧ s'.peek.lexeme.kind ≠ .operator ∧
        (∀ x ∈ a :: as.map Prod.snd, IsAtom x) ∧ Closed (chained a as) ∧
        ∃ t : Chain, t.Groups a as ∧ t.expr = e ∧ ∀ u : Chain, u.Groups a as → u = t := by
  intro s
  obtain ⟨e, he⟩ : ∃ e, ((readExpr ⟨"", 1, []⟩ 40).run s).1.toOption = some e :=
    Option.isSome_iff_exists.mp (by decide +kernel)
  have hleft : ((readExpr ⟨"", 1, []⟩ 40).run s).2.lexemes = [.keyword .guard] := by decide +kernel
  generalize hrun : (readExpr ⟨"", 1, []⟩ 40).run s = r at he hleft
  obtain ⟨_ | e', s'⟩ := r
  · cases he
  · exact ⟨rfl, e', s', rfl, hleft, readExpr_chain ⟨"", 1, []⟩ 40 rfl hrun⟩

end JossLang
