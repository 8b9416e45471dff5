import JossLang.Proofs.Canonical
import JossLang.Proofs.Layout
import JossLang.Proofs.Readers

/-!
# What reading gives

Only trees that can be written are read from a line: every name, number and text
in a tree stands in the line that it was read from. This module has it for
expressions: `readersKeep`.
-/

namespace JossLang

/-! ## Expressions that can be written -/

def Plain (ls : List Lexeme) : Prop := ∀ l ∈ ls, l.Sound ∧ l.kind ≠ .text

@[simp] theorem plain_nil : Plain [] := nofun

@[simp] theorem plain_cons {l : Lexeme} {ls : List Lexeme} : Plain (l :: ls) ↔ (l.Sound ∧ l.kind ≠ .text) ∧ Plain ls :=
  List.forall_mem_cons

theorem Plain.cons {l : Lexeme} {ls : List Lexeme} (hs : l.Sound) (hl : l.kind ≠ .text) (h : Plain ls) :
    Plain (l :: ls) := plain_cons.mpr ⟨⟨hs, hl⟩, h⟩

@[simp] theorem plain_append {ls ms : List Lexeme} : Plain (ls ++ ms) ↔ Plain ls ∧ Plain ms := List.forall_mem_append

@[simp] theorem plain_boxed {ls : List Lexeme} : Plain (boxed ls) ↔ Plain ls := by
  simp [boxed, Lexeme.Sound, Lexeme.kind]

def Expr.Sayable (e : Expr) : Prop := ∃ ls, e.Writes ls ∧ Plain ls

def Branch.Sayable : Branch → Prop
  | .mk condition result => condition.Sayable ∧ result.Sayable

def Term.Sayable (t : Term) : Prop := ∃ ls, t.Writes ls ∧ Plain ls

def Range.Sayable (r : Range) : Prop := ∃ ls, r.Writes ls ∧ Plain ls

theorem sayable_number (pos : Location) {s : String} (hs : Numeral s.toList) :
    (Expr.number pos (Double.ofLiteral s.toList)).Sayable :=
  ⟨[.number s], ⟨s, rfl, rfl⟩, Plain.cons hs (by simp [Lexeme.kind]) plain_nil⟩

theorem sayable_zero (pos : Location) : (Expr.number pos 0).Sayable := by
  have hdigit : Numeral ['0'] := .whole (by decide) (List.forall_mem_singleton.mpr (by decide))
  have hzero : Double.ofLiteral ['0'] = 0 := by decide
  have := sayable_number pos (s := String.ofList ['0']) (String.toList_ofList ▸ hdigit)
  rwa [String.toList_ofList, hzero] at this

theorem sayable_indices {is : List Expr} (hi : ∀ i ∈ is, i.Sayable) : ∃ ls, writesIndices is ls ∧ Plain ls := by
  induction is with
  | nil => exact ⟨[], rfl, plain_nil⟩
  | cons i is ih =>
    obtain ⟨⟨li, hw, hl⟩, hi⟩ := List.forall_mem_cons.mp hi
    obtain ⟨lr, hwr, hlr⟩ := ih hi
    exact ⟨_, ⟨li, lr, hw, hwr, rfl⟩, by simp [hl, hlr, Lexeme.Sound, Lexeme.kind]⟩

section
variable (pos : Location) {name : String} (hname : (Lexeme.name name).Sound)
include hname

theorem sayable_reference {indices : List Expr} (hi : ∀ i ∈ indices, i.Sayable) :
    (Expr.reference pos name indices).Sayable := by
  cases indices with
  | nil => exact ⟨[.name name], rfl, by simp [hname, Lexeme.kind]⟩
  | cons i is =>
    obtain ⟨⟨li, hw, hl⟩, hi⟩ := List.forall_mem_cons.mp hi
    obtain ⟨lr, hwr, hlr⟩ := sayable_indices hi
    exact ⟨_, ⟨li, lr, hw, hwr, rfl⟩, by simp [hname, hl, hlr, Lexeme.kind]⟩

theorem sayable_reduction {v : String} (hv : (Lexeme.name v).Sound) {range : Range} (hr : range.Sayable) {body : Expr}
    (hb : body.Sayable) : (Expr.reduction pos name v range body).Sayable := by
  obtain ⟨lr, hwr, hlr⟩ := hr
  obtain ⟨lb, hwb, hlb⟩ := hb
  exact ⟨_, ⟨lr, lb, hwr, hwb, rfl⟩, by simpa [hlr, hlb, Lexeme.Sound, Lexeme.kind] using ⟨hname, hv⟩⟩

end

theorem sayable_binary (pos : Location) (o : Operator) {lhs rhs : Expr} (hl : lhs.Sayable) (hr : rhs.Sayable) :
    (Expr.binary pos o lhs rhs).Sayable := by
  obtain ⟨ll, hwl, hll⟩ := hl
  obtain ⟨lr, hwr, hlr⟩ := hr
  exact ⟨_, ⟨ll, lr, hwl, hwr, rfl⟩, by simp [hll, hlr, Lexeme.Sound, Lexeme.kind]⟩

theorem sayable_branches {bs : List Branch} (hb : ∀ b ∈ bs, b.Sayable) : ∃ ls, writesBranches bs ls ∧ Plain ls := by
  induction bs with
  | nil => exact ⟨[], rfl, plain_nil⟩
  | cons b bs ih =>
    obtain ⟨condition, result⟩ := b
    obtain ⟨⟨⟨lc, hwc, hlc⟩, ⟨lr, hwr, hlr⟩⟩, hb⟩ := List.forall_mem_cons.mp hb
    obtain ⟨lb, hwb, hlb⟩ := ih hb
    exact ⟨_, ⟨lc, lr, lb, hwc, hwr, hwb, rfl⟩, by simp [hlc, hlr, hlb, Lexeme.Sound, Lexeme.kind]⟩

theorem sayable_conditional (pos : Location) {bs : List Branch} (hne : bs ≠ []) (hb : ∀ b ∈ bs, b.Sayable)
    {otherwise : Expr} (ho : otherwise.Sayable) : (Expr.conditional pos bs otherwise).Sayable := by
  obtain ⟨lb, hwb, hlb⟩ := sayable_branches hb
  obtain ⟨lo, hwo, hlo⟩ := ho
  exact ⟨_, ⟨hne, lb, lo, hwb, hwo, rfl⟩, by simp [hlb, hlo]⟩

theorem sayable_single {value : Expr} (hv : value.Sayable) : (Term.single value).Sayable := by
  obtain ⟨lv, hw, hl⟩ := hv
  exact ⟨_, ⟨lv, hw, rfl⟩, plain_boxed.mpr hl⟩

theorem sayable_stepped {start step stop : Expr} (ha : start.Sayable) (hb : step.Sayable) (hc : stop.Sayable) :
    (Term.stepped start step stop).Sayable := by
  obtain ⟨la, hwa, hla⟩ := ha
  obtain ⟨lb, hwb, hlb⟩ := hb
  obtain ⟨lc, hwc, hlc⟩ := hc
  exact ⟨_, ⟨la, lb, lc, hwa, hwb, hwc, rfl⟩, by simp [hla, hlb, hlc]⟩

theorem sayable_terms {ts : List Term} (ht : ∀ t ∈ ts, t.Sayable) : ∃ ls, writesTerms ts ls ∧ Plain ls := by
  induction ts with
  | nil => exact ⟨[], rfl, plain_nil⟩
  | cons t ts ih =>
    obtain ⟨⟨lt, hw, hl⟩, ht⟩ := List.forall_mem_cons.mp ht
    obtain ⟨lr, hwr, hlr⟩ := ih ht
    exact ⟨_, ⟨lt, lr, hw, hwr, rfl⟩, by simp [hl, hlr, Lexeme.Sound, Lexeme.kind]⟩

theorem sayable_range (pos : Location) {ts : List Term} (hne : ts ≠ []) (ht : ∀ t ∈ ts, t.Sayable) :
    (Range.mk pos ts).Sayable := by
  obtain ⟨t, ts, rfl⟩ := List.exists_cons_of_ne_nil hne
  obtain ⟨⟨lt, hw, hl⟩, ht⟩ := List.forall_mem_cons.mp ht
  obtain ⟨lr, hwr, hlr⟩ := sayable_terms ht
  exact ⟨_, ⟨lt, lr, hw, hwr, rfl⟩, by simp [hl, hlr]⟩

theorem Expr.Sayable.loopStart {e : Expr} (he : e.Sayable) {v : String} {start : Expr}
    (h : loopStart? e = some (v, start)) : (Lexeme.name v).Sound ∧ start.Sayable := by
  unfold loopStart? at h
  split at h
  · cases h
    obtain ⟨ls, ⟨ll, lr, hll, hlr, rfl⟩, hl⟩ := he
    obtain rfl : ll = [.name v] := hll
    simp only [plain_boxed, plain_append, plain_cons] at hl
    exact ⟨hl.1.1.1, lr, hlr, hl.2.2⟩
  · cases h

/-! ## Streams of a line -/

structure Stream.Clean (n : Nat) (s : Stream) : Prop where
  finish : s.finish.lexeme = .finish
  scanned : ∀ t ∈ s.rest, t.lexeme.Scanned
  texts : s.rest.countP (·.lexeme.kind = .text) ≤ n

def Keeps {α : Type} (n : Nat) (r : Reader α) (P : α → Prop) : Prop :=
  Ensures (Stream.Clean n) r fun a s => P a ∧ s.Clean n

theorem Keeps.bind {α β : Type} {n : Nat} {r : Reader α} {f : α → Reader β} {P : α → Prop} {R : β → Stream → Prop}
    (h : Keeps n r P) (hf : ∀ a, P a → Ensures (Stream.Clean n) (f a) R) : Ensures (Stream.Clean n) (r >>= f) R :=
  Ensures.bind h fun a s b s' hs hr => hf a hs.1 s b s' hs.2 hr

theorem keeps_pure {α : Type} {n : Nat} {a : α} {P : α → Prop} (h : P a) : Keeps n (pure a) P :=
  ensures_pure fun _ hs => ⟨h, hs⟩

def Token.Seen (t : Token) : Prop := t.lexeme.Scanned ∨ t.lexeme = .finish

theorem Token.Seen.sound {t : Token} (h : t.Seen) {l : Lexeme} (hl : t.lexeme = l) (hk : l.kind ≠ .other)
    (hf : l ≠ .finish) : l.Sound := by
  subst hl
  rcases h with (h | h) | h
  · exact h
  · exact absurd h hk
  · exact absurd h hf

theorem Stream.Clean.peek_seen {n : Nat} {s : Stream} (h : s.Clean n) : s.peek.Seen := by
  rw [Stream.peek]
  cases hr : s.rest with
  | nil => exact .inr h.finish
  | cons t ts => exact .inl (h.scanned t (by simp [hr]))

theorem Stream.Clean.next {n : Nat} {s : Stream} (h : s.Clean n) : s.next.2.Clean n := by
  refine ⟨h.finish, fun t ht => h.scanned t (List.mem_of_mem_tail ht), ?_⟩
  exact (List.tail_sublist s.rest).countP_le.trans h.texts

section
variable {n : Nat}

theorem keeps_peek : Keeps n Reader.peek Token.Seen := by
  intro s t s' hs hr
  cases hr
  exact ⟨hs.peek_seen, hs⟩

theorem keeps_next : Keeps n Reader.next Token.Seen := by
  intro s t s' hs hr
  cases hr
  exact ⟨hs.peek_seen, hs.next⟩

theorem Keeps.discard {α : Type} {r : Reader α} {P : α → Prop} (h : Keeps n r P) :
    Keeps n (discard r) fun _ => True := by
  rw [Functor.discard]
  exact h.bind fun _ _ => keeps_pure trivial

theorem keeps_accept (l : Lexeme) : Keeps n (Reader.accept l) fun _ => True := by
  refine keeps_peek.bind fun t _ => ?_
  split
  · exact keeps_next.discard.bind fun _ _ => keeps_pure trivial
  · exact keeps_pure trivial

theorem keeps_expect (place : Place) (l : Lexeme) : Keeps n (Reader.expect place l) fun _ => True := by
  refine keeps_next.bind fun t _ => ?_
  split
  · exact keeps_pure trivial
  · exact ensures_fail

theorem keeps_expectKind (place : Place) (k : Kind) : Keeps n (Reader.expectKind place k) fun _ => True := by
  refine keeps_next.bind fun t _ => ?_
  split
  · exact keeps_pure trivial
  · exact ensures_fail

theorem keeps_expectName (place : Place) : Keeps n (Reader.expectName place) fun p => (Lexeme.name p.1).Sound := by
  refine keeps_next.bind fun t ht => ?_
  split
  · next s hs => exact keeps_pure (ht.sound hs nofun nofun)
  · exact ensures_fail

theorem keeps_expectNumber (place : Place) : Keeps n (Reader.expectNumber place) fun s => Numeral s.toList := by
  refine keeps_next.bind fun t ht => ?_
  split
  · next s hs => exact keeps_pure (ht.sound hs nofun nofun)
  · exact ensures_fail

theorem keeps_nextPrecedence : Keeps n nextPrecedence fun _ => True := by
  refine keeps_peek.bind fun t _ => ?_
  split
  · exact keeps_pure trivial
  · exact ensures_fail
  · exact keeps_pure trivial

end

/-! ## Expressions -/

variable (src : Source) (n : Nat)

structure ReadersKeep (depth : Nat) : Prop where
  expr : Keeps n (readExpr src depth) Expr.Sayable
  operand : Keeps n (readOperand src depth) Expr.Sayable
  operators : ∀ lhs least, lhs.Sayable → Keeps n (readOperators src depth lhs least) Expr.Sayable
  tighter : ∀ rhs than, rhs.Sayable → Keeps n (readTighter src depth rhs than) Expr.Sayable
  group : ∀ pos b e branches, e.Sayable → (∀ branch ∈ branches, branch.Sayable) →
    Keeps n (readGroup src depth pos b e branches) Expr.Sayable
  reference : Keeps n (readReference src depth) Expr.Sayable
  indices : ∀ pos name b is, (Lexeme.name name).Sound → (∀ i ∈ is, i.Sayable) →
    Keeps n (readIndices src depth pos name b is) Expr.Sayable
  iterated : ∀ pos name b v rangePos start terms is, (Lexeme.name name).Sound → (Lexeme.name v).Sound →
    start.Sayable → (∀ t ∈ terms, t.Sayable) → (∀ i ∈ is, i.Sayable) →
    Keeps n (readIterated src depth pos name b v rangePos start terms is) Expr.Sayable
  term : ∀ start, start.Sayable → Keeps n (readTerm src depth start) Term.Sayable

theorem readersKeep_zero : ReadersKeep src n 0 where
  expr := ensures_throw
  operand := ensures_throw
  operators _ _ _ := ensures_throw
  tighter _ _ _ := ensures_throw
  group _ _ _ _ _ _ := ensures_throw
  reference := ensures_throw
  indices _ _ _ _ _ _ := ensures_throw
  iterated _ _ _ _ _ _ _ _ _ _ _ _ _ := ensures_throw
  term _ _ := ensures_throw

section
variable {src n} {depth : Nat} (h : ReadersKeep src n depth)
include h

theorem ReadersKeep.expr_succ : Keeps n (readExpr src (depth + 1)) Expr.Sayable := by
  rw [readExpr]
  exact h.operand.bind fun lhs hlhs => h.operators lhs 0 hlhs

theorem ReadersKeep.operand_succ : Keeps n (readOperand src (depth + 1)) Expr.Sayable := by
  rw [readOperand]
  refine keeps_peek.bind fun t ht => ?_
  split
  · next s hs =>
    exact keeps_next.discard.bind fun _ _ => keeps_pure (sayable_number _ (ht.sound hs nofun nofun))
  · exact h.reference
  · exact keeps_next.discard.bind fun _ _ => h.expr.bind fun e he => h.group _ _ e [] he nofun
  · exact keeps_next.discard.bind fun _ _ => h.operand.bind fun e he =>
      keeps_pure (sayable_binary _ _ (sayable_zero _) he)
  · exact keeps_next.discard.bind fun _ _ => h.operand.bind fun e he =>
      keeps_pure (sayable_binary _ _ (sayable_zero _) he)
  · exact ensures_fail

theorem ReadersKeep.operators_succ (lhs : Expr) (least : Nat) (hlhs : lhs.Sayable) :
    Keeps n (readOperators src (depth + 1) lhs least) Expr.Sayable := by
  rw [readOperators]
  refine keeps_nextPrecedence.bind fun p _ => ?_
  split
  · exact keeps_pure hlhs
  · split
    · exact keeps_pure hlhs
    · exact keeps_next.discard.bind fun _ _ => h.operand.bind fun a ha => (h.tighter a _ ha).bind fun rhs hrhs =>
        h.operators _ least (sayable_binary _ _ hlhs hrhs)

theorem ReadersKeep.tighter_succ (rhs : Expr) (than : Nat) (hrhs : rhs.Sayable) :
    Keeps n (readTighter src (depth + 1) rhs than) Expr.Sayable := by
  rw [readTighter]
  refine keeps_nextPrecedence.bind fun p _ => ?_
  split
  · exact keeps_pure hrhs
  · split
    · exact (h.operators rhs _ hrhs).bind fun e he => h.tighter e than he
    · exact keeps_pure hrhs

theorem ReadersKeep.group_succ (pos : Location) (b : Bracket) (e : Expr) (branches : List Branch) (he : e.Sayable)
    (hb : ∀ branch ∈ branches, branch.Sayable) : Keeps n (readGroup src (depth + 1) pos b e branches) Expr.Sayable := by
  rw [readGroup]
  refine (keeps_accept _).bind fun c _ => ?_
  split
  · refine h.expr.bind fun result hresult => (keeps_expectKind _ _).discard.bind fun _ _ => ?_
    refine h.expr.bind fun e' he' => ?_
    exact h.group pos b e' _ he' (List.forall_mem_cons.mpr ⟨⟨he, hresult⟩, hb⟩)
  · refine (keeps_expect _ _).discard.bind fun _ _ => keeps_pure ?_
    split
    · exact he
    · next hne =>
      exact sayable_conditional pos (by simpa using hne) (fun branch hm => hb branch (List.mem_reverse.mp hm)) he

theorem ReadersKeep.reference_succ : Keeps n (readReference src (depth + 1)) Expr.Sayable := by
  rw [readReference]
  refine (keeps_expectName _).bind fun ⟨name, t⟩ hname => keeps_peek.bind fun t' _ => ?_
  split
  · refine keeps_next.discard.bind fun _ _ => h.expr.bind fun first hfirst => ?_
    have hone : ∀ i ∈ [first], i.Sayable := List.forall_mem_singleton.mpr hfirst
    split
    · next v start hstart =>
      obtain ⟨hv, hs⟩ := hfirst.loopStart hstart
      exact h.iterated _ name _ v _ start [] [first] hname hv hs nofun hone
    · exact h.indices _ name _ [first] hname hone
  · exact keeps_pure (sayable_reference _ hname nofun)

theorem ReadersKeep.indices_succ (pos : Location) (name : String) (b : Bracket) (is : List Expr)
    (hname : (Lexeme.name name).Sound) (hi : ∀ i ∈ is, i.Sayable) :
    Keeps n (readIndices src (depth + 1) pos name b is) Expr.Sayable := by
  rw [readIndices]
  refine (keeps_accept _).bind fun c _ => ?_
  split
  · exact h.expr.bind fun e he => h.indices pos name b _ hname (List.forall_mem_cons.mpr ⟨he, hi⟩)
  · exact (keeps_expect _ _).discard.bind fun _ _ =>
      keeps_pure (sayable_reference pos hname fun i hm => hi i (List.mem_reverse.mp hm))

theorem ReadersKeep.iterated_succ (pos : Location) (name : String) (b : Bracket) (v : String) (rangePos : Location)
    (start : Expr) (terms : List Term) (is : List Expr) (hname : (Lexeme.name name).Sound)
    (hv : (Lexeme.name v).Sound) (hs : start.Sayable) (ht : ∀ t ∈ terms, t.Sayable) (hi : ∀ i ∈ is, i.Sayable) :
    Keeps n (readIterated src (depth + 1) pos name b v rangePos start terms is) Expr.Sayable := by
  rw [readIterated]
  refine (h.term start hs).bind fun t htm => ?_
  have hts : ∀ u ∈ t :: terms, u.Sayable := List.forall_mem_cons.mpr ⟨htm, ht⟩
  refine (keeps_accept _).bind fun c _ => ?_
  split
  · exact h.expr.bind fun e he =>
      h.iterated pos name b v rangePos e _ _ hname hv he hts (List.forall_mem_cons.mpr ⟨he, hi⟩)
  · refine keeps_peek.bind fun t' _ => ?_
    dsimp only
    split
    · refine keeps_next.discard.bind fun _ _ => h.expr.bind fun body hbody => ?_
      refine (keeps_expect _ _).discard.bind fun _ _ => keeps_pure (sayable_reduction pos hname hv ?_ hbody)
      exact sayable_range rangePos (by simp) fun u hm => hts u (List.mem_reverse.mp hm)
    · split
      · exact keeps_next.discard.bind fun _ _ =>
          keeps_pure (sayable_reference pos hname fun i hm => hi i (List.mem_reverse.mp hm))
      · exact ensures_fail

theorem ReadersKeep.term_succ (start : Expr) (hs : start.Sayable) :
    Keeps n (readTerm src (depth + 1) start) Term.Sayable := by
  rw [readTerm]
  refine keeps_peek.bind fun t _ => ?_
  split
  · exact keeps_next.discard.bind fun _ _ => h.expr.bind fun step hstep => (keeps_expect _ _).discard.bind fun _ _ =>
      h.expr.bind fun stop hstop => keeps_pure (sayable_stepped hs hstep hstop)
  · exact keeps_pure (sayable_single hs)

end

/-- **Expressions.** Every expression that is read can be written. -/
theorem readersKeep (depth : Nat) : ReadersKeep src n depth := by
  induction depth with
  | zero => exact readersKeep_zero src n
  | succ depth ih =>
    exact ⟨ih.expr_succ, ih.operand_succ, ih.operators_succ, ih.tighter_succ, ih.group_succ, ih.reference_succ,
      ih.indices_succ, ih.iterated_succ, ih.term_succ⟩

end JossLang
