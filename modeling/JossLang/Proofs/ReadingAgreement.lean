import JossLang.Proofs.Alike
import JossLang.Proofs.ProgramHistory
import JossLang.Proofs.Readers

/-!
# Reading the same tokens twice

The same lexemes at other columns of another line are read as trees that are
alike, or not read for the same reason: `readersAgree` for expressions and
`readLine_agree` for lines.
-/

namespace JossLang

/-- Two lines to be read, with the columns and the locations that stand for one another in them. -/
structure Rereading where
  src : Source
  src' : Source
  columns : Nat → Nat → Prop
  place : Location → Location → Prop
  placed : ∀ t t' : Token, columns t.column t'.column → place (src.at t) (src'.at t')

namespace Rereading

variable (R : Rereading)

structure Tokens (t t' : Token) : Prop where
  lexeme : t.lexeme = t'.lexeme
  columns : R.columns t.column t'.column
  name : ∀ x, t.lexeme = .name x → (Lexeme.name x).Sound
  number : ∀ x, t.lexeme = .number x → (Lexeme.number x).Sound

structure Streams (s s' : Stream) : Prop where
  rest : List.Forall₂ R.Tokens s.rest s'.rest
  finish : R.Tokens s.finish s'.finish

inductive Outcome {α β : Type} (P : α → β → Prop) :
    Except ParseError α × Stream → Except ParseError β × Stream → Prop where
  | ok {a : α} {b : β} {t t' : Stream} : P a b → R.Streams t t' → Outcome P (.ok a, t) (.ok b, t')
  | error (cause : ParseCause) {column column' : Option Nat} {t t' : Stream} : Option.Rel R.columns column column' →
      Outcome P (.error ⟨cause, column⟩, t) (.error ⟨cause, column'⟩, t')

def Agree {α β : Type} (r : Reader α) (r' : Reader β) (P : α → β → Prop) : Prop :=
  ∀ s s', R.Streams s s' → R.Outcome P (r.run s) (r'.run s')

variable {R}

section
variable {α β α' β' : Type} {P : α → β → Prop} {Q : α' → β' → Prop}

theorem Agree.bind {r : Reader α} {r' : Reader β} {f : α → Reader α'} {f' : β → Reader β'} (h : R.Agree r r' P)
    (hf : ∀ a b, P a b → R.Agree (f a) (f' b) Q) : R.Agree (r >>= f) (r' >>= f') Q := by
  intro s s' hs
  have ho := h s s' hs
  rw [run_bind, run_bind]
  generalize r.run s = o at ho
  generalize r'.run s' = o' at ho
  cases ho with
  | ok hab ht => exact hf _ _ hab _ _ ht
  | error cause hc => exact .error cause hc

theorem agree_pure {a : α} {b : β} (h : P a b) : R.Agree (pure a) (pure b) P := fun _ _ hs => .ok h hs

theorem Agree.imp {P' : α → β → Prop} {r : Reader α} {r' : Reader β} (h : R.Agree r r' P)
    (hP : ∀ a b, P a b → P' a b) : R.Agree r r' P' := by
  intro s s' hs
  have ho := h s s' hs
  generalize r.run s = o at ho ⊢
  generalize r'.run s' = o' at ho ⊢
  cases ho with
  | ok hab ht => exact .ok (hP _ _ hab) ht
  | error cause hc => exact .error cause hc

theorem agree_throw {cause : ParseCause} : R.Agree (throw ⟨cause, none⟩ : Reader α) (throw ⟨cause, none⟩ : Reader β) P :=
  fun _ _ _ => .error cause .none

theorem agree_fail {cause : ParseCause} {t t' : Token} (ht : R.Tokens t t') :
    R.Agree (Reader.fail cause t : Reader α) (Reader.fail cause t' : Reader β) P :=
  fun _ _ _ => .error cause (.some ht.columns)

theorem Agree.discard {r : Reader α} {r' : Reader β} (h : R.Agree r r' P) :
    R.Agree (discard r) (discard r') fun _ _ => True := by
  rw [Functor.discard, Functor.discard]
  exact h.bind fun _ _ _ => agree_pure trivial

theorem agree_nesting {f : Nat → Reader α} {g : Nat → Reader β} (h : ∀ depth, R.Agree (f depth) (g depth) P) :
    R.Agree (do f (nestingBound (← get))) (do g (nestingBound (← get))) P := by
  intro s s' hs
  have hlength : nestingBound s = nestingBound s' := by rw [nestingBound, nestingBound, hs.rest.length_eq]
  show R.Outcome P ((f (nestingBound s)).run s) ((g (nestingBound s')).run s')
  rw [hlength]
  exact h _ s s' hs

end

/-! ## Tokens -/

theorem Streams.peek {s s' : Stream} (h : R.Streams s s') : R.Tokens s.peek s'.peek := by
  obtain ⟨hr, hf⟩ := h
  unfold Stream.peek
  generalize s.rest = ts at hr ⊢
  generalize s'.rest = ts' at hr ⊢
  cases hr with
  | nil => exact hf
  | cons ht _ => exact ht

theorem Streams.next {s s' : Stream} (h : R.Streams s s') : R.Streams s.next.2 s'.next.2 := by
  refine ⟨?_, h.finish⟩
  have hr := h.rest
  unfold Stream.next
  generalize s.rest = ts at hr ⊢
  generalize s'.rest = ts' at hr ⊢
  cases hr with
  | nil => exact .nil
  | cons _ hr => exact hr

section
open Reader

theorem agree_peek : R.Agree peek peek R.Tokens := fun _ _ hs => .ok hs.peek hs

theorem agree_next : R.Agree next next R.Tokens := fun _ _ hs => .ok hs.peek hs.next

theorem agree_accept (l : Lexeme) : R.Agree (accept l) (accept l) Eq := by
  unfold accept
  refine agree_peek.bind fun t t' ht => ?_
  rw [ht.lexeme]
  split
  · exact agree_next.discard.bind fun _ _ _ => agree_pure rfl
  · exact agree_pure rfl

theorem agree_expect (place : Place) (l : Lexeme) : R.Agree (expect place l) (expect place l) R.Tokens := by
  unfold expect
  refine agree_next.bind fun t t' ht => ?_
  rw [ht.lexeme]
  split
  · exact agree_pure ht
  · exact agree_fail ht

theorem agree_expectKind (place : Place) (k : Kind) : R.Agree (expectKind place k) (expectKind place k) R.Tokens := by
  unfold expectKind
  refine agree_next.bind fun t t' ht => ?_
  rw [ht.lexeme]
  split
  · exact agree_pure ht
  · exact agree_fail ht

theorem agree_expectName (place : Place) : R.Agree (expectName place) (expectName place)
    fun p p' => p.1 = p'.1 ∧ R.Tokens p.2 p'.2 ∧ (Lexeme.name p.1).Sound := by
  unfold expectName
  refine agree_next.bind fun t t' ht => ?_
  rw [← ht.lexeme]
  cases hl : t.lexeme with
  | name s => exact agree_pure ⟨rfl, ht, ht.name s hl⟩
  | _ => exact agree_fail ht

theorem agree_expectNumber (place : Place) : R.Agree (expectNumber place) (expectNumber place)
    fun s s' => s = s' ∧ (Lexeme.number s).Sound := by
  unfold expectNumber
  refine agree_next.bind fun t t' ht => ?_
  rw [← ht.lexeme]
  cases hl : t.lexeme with
  | number s => exact agree_pure ⟨rfl, ht.number s hl⟩
  | _ => exact agree_fail ht

theorem agree_nextPrecedence : R.Agree nextPrecedence nextPrecedence Eq := by
  unfold nextPrecedence
  refine agree_peek.bind fun t t' ht => ?_
  rw [← ht.lexeme]
  cases t.lexeme with
  | caret => exact agree_fail ht
  | _ => exact agree_pure rfl

end

/-! ## Expressions -/

theorem loopStart?_alike {place : Location → Location → Prop} {e e' : Expr} (h : e.Alike place e') :
    Option.Rel (fun a b => a.1 = b.1 ∧ a.2.Alike place b.2) (loopStart? e) (loopStart? e') := by
  cases h with
  | binary o _ hl hr => cases hl with
    | reference v _ hi => cases hi with
      | nil => cases o with
        | eq => exact .some ⟨rfl, hr⟩
        | _ => exact .none
      | cons _ _ => cases o <;> exact .none
    | _ => cases o <;> exact .none
  | _ => exact .none

def References (R : Rereading) (e e' : Expr) : Prop :=
  e.Alike R.place e' ∧ ∀ pos name is, e = .reference pos name is → (Lexeme.name name).Sound

theorem references {pos pos' : Location} (hp : R.place pos pos') {name : String} (hname : (Lexeme.name name).Sound)
    {is is' : List Expr} (hi : List.Forall₂ (Expr.Alike R.place) is is') :
    R.References (.reference pos name is.reverse) (.reference pos' name is'.reverse) := by
  refine ⟨.reference name hp (List.forall₂_reverse_iff.mpr hi), ?_⟩
  rintro _ _ _ ⟨⟩
  exact hname

theorem references_reduction {pos pos' : Location} (hp : R.place pos pos') (name v : String) {r r' : Range}
    (hr : r.Alike R.place r') {e e' : Expr} (he : e.Alike R.place e') :
    R.References (.reduction pos name v r e) (.reduction pos' name v r' e') := ⟨.reduction name v hp hr he, nofun⟩

theorem all_eq_of_alike {place : Location → Location → Prop} {f : Term → Bool}
    (hf : ∀ t t', t.Alike place t' → f t = f t') {ts ts' : List Term} (h : List.Forall₂ (Term.Alike place) ts ts') :
    ts.all f = ts'.all f := by
  induction h with
  | nil => rfl
  | cons ht _ ih => rw [List.all_cons, List.all_cons, hf _ _ ht, ih]

variable (R) in
structure ReadersAgree (depth : Nat) : Prop where
  expr : R.Agree (readExpr R.src depth) (readExpr R.src' depth) (Expr.Alike R.place)
  operand : R.Agree (readOperand R.src depth) (readOperand R.src' depth) (Expr.Alike R.place)
  operators : ∀ {lhs lhs'} least, lhs.Alike R.place lhs' →
    R.Agree (readOperators R.src depth lhs least) (readOperators R.src' depth lhs' least) (Expr.Alike R.place)
  tighter : ∀ {rhs rhs'} than, rhs.Alike R.place rhs' →
    R.Agree (readTighter R.src depth rhs than) (readTighter R.src' depth rhs' than) (Expr.Alike R.place)
  group : ∀ {pos pos' e e' branches branches'} b, R.place pos pos' → e.Alike R.place e' →
    List.Forall₂ (Branch.Alike R.place) branches branches' →
    R.Agree (readGroup R.src depth pos b e branches) (readGroup R.src' depth pos' b e' branches') (Expr.Alike R.place)
  reference : R.Agree (readReference R.src depth) (readReference R.src' depth) R.References
  indices : ∀ {pos pos' name is is'} b, R.place pos pos' → (Lexeme.name name).Sound →
    List.Forall₂ (Expr.Alike R.place) is is' →
    R.Agree (readIndices R.src depth pos name b is) (readIndices R.src' depth pos' name b is') R.References
  iterated : ∀ {pos pos' name rangePos rangePos' start start' terms terms' is is'} b v, R.place pos pos' →
    (Lexeme.name name).Sound → R.place rangePos rangePos' → start.Alike R.place start' →
    List.Forall₂ (Term.Alike R.place) terms terms' → List.Forall₂ (Expr.Alike R.place) is is' →
    R.Agree (readIterated R.src depth pos name b v rangePos start terms is)
      (readIterated R.src' depth pos' name b v rangePos' start' terms' is') R.References
  term : ∀ {start start'}, start.Alike R.place start' →
    R.Agree (readTerm R.src depth start) (readTerm R.src' depth start') (Term.Alike R.place)

variable (R) in
theorem readersAgree_zero : R.ReadersAgree 0 where
  expr := agree_throw
  operand := agree_throw
  operators _ _ := agree_throw
  tighter _ _ := agree_throw
  group _ _ _ _ := agree_throw
  reference := agree_throw
  indices _ _ _ _ := agree_throw
  iterated _ _ _ _ _ _ _ _ := agree_throw
  term _ := agree_throw

theorem Tokens.at {t t' : Token} (h : R.Tokens t t') : R.place (R.src.at t) (R.src'.at t') := R.placed t t' h.columns

section
variable {depth : Nat} (h : R.ReadersAgree depth)
include h

theorem ReadersAgree.expr_succ :
    R.Agree (readExpr R.src (depth + 1)) (readExpr R.src' (depth + 1)) (Expr.Alike R.place) := by
  rw [readExpr, readExpr]
  exact h.operand.bind fun lhs lhs' hlhs => h.operators 0 hlhs

theorem ReadersAgree.operand_succ :
    R.Agree (readOperand R.src (depth + 1)) (readOperand R.src' (depth + 1)) (Expr.Alike R.place) := by
  rw [readOperand, readOperand]
  refine agree_peek.bind fun t t' ht => ?_
  rw [← ht.lexeme]
  cases t.lexeme with
  | number s => exact agree_next.discard.bind fun _ _ _ => agree_pure (.number _ ht.at)
  | name s => exact h.reference.imp fun _ _ he => he.1
  | opening b => exact agree_next.discard.bind fun _ _ _ => h.expr.bind fun e e' he => h.group b ht.at he .nil
  | operator o => cases o with
    | sub | add =>
      exact agree_next.discard.bind fun _ _ _ => h.operand.bind fun e e' he =>
        agree_pure (.binary _ ht.at (.number 0 ht.at) he)
    | _ => exact agree_fail ht
  | _ => exact agree_fail ht

theorem ReadersAgree.operators_succ {lhs lhs' : Expr} (least : Nat) (hlhs : lhs.Alike R.place lhs') :
    R.Agree (readOperators R.src (depth + 1) lhs least) (readOperators R.src' (depth + 1) lhs' least)
      (Expr.Alike R.place) := by
  rw [readOperators, readOperators]
  refine agree_nextPrecedence.bind fun p p' hp => ?_
  subst hp
  split
  · exact agree_pure hlhs
  · split
    · exact agree_pure hlhs
    · refine agree_next.discard.bind fun _ _ _ => h.operand.bind fun a a' ha => ?_
      refine (h.tighter _ ha).bind fun rhs rhs' hrhs => ?_
      exact h.operators least (.binary _ hlhs.pos hlhs hrhs)

theorem ReadersAgree.tighter_succ {rhs rhs' : Expr} (than : Nat) (hrhs : rhs.Alike R.place rhs') :
    R.Agree (readTighter R.src (depth + 1) rhs than) (readTighter R.src' (depth + 1) rhs' than)
      (Expr.Alike R.place) := by
  rw [readTighter, readTighter]
  refine agree_nextPrecedence.bind fun p p' hp => ?_
  subst hp
  split
  · exact agree_pure hrhs
  · split
    · exact (h.operators _ hrhs).bind fun e e' he => h.tighter than he
    · exact agree_pure hrhs

theorem ReadersAgree.group_succ {pos pos' : Location} {e e' : Expr} {branches branches' : List Branch} (b : Bracket)
    (hp : R.place pos pos') (he : e.Alike R.place e') (hb : List.Forall₂ (Branch.Alike R.place) branches branches') :
    R.Agree (readGroup R.src (depth + 1) pos b e branches) (readGroup R.src' (depth + 1) pos' b e' branches')
      (Expr.Alike R.place) := by
  rw [readGroup, readGroup]
  refine (agree_accept _).bind fun c c' hc => ?_
  subst hc
  split
  · refine h.expr.bind fun r r' hr => (agree_expectKind _ _).discard.bind fun _ _ _ => h.expr.bind fun d d' hd => ?_
    exact h.group b hp hd (.cons (.mk he hr) hb)
  · refine (agree_expect _ _).discard.bind fun _ _ _ => agree_pure ?_
    cases hb with
    | nil => exact he
    | cons hbranch hb => exact .conditional hp (List.forall₂_reverse_iff.mpr (.cons hbranch hb)) he

theorem ReadersAgree.reference_succ :
    R.Agree (readReference R.src (depth + 1)) (readReference R.src' (depth + 1)) R.References := by
  rw [readReference, readReference]
  refine (agree_expectName _).bind fun ⟨name, t⟩ ⟨name', t'⟩ ⟨hname, ht, hsound⟩ => ?_
  dsimp only at hname ht hsound
  subst hname
  refine agree_peek.bind fun u u' hu => ?_
  rw [← hu.lexeme]
  cases u.lexeme with
  | opening b =>
    refine agree_next.discard.bind fun _ _ _ => h.expr.bind fun first first' hfirst => ?_
    have hone : List.Forall₂ (Expr.Alike R.place) [first] [first'] := .cons hfirst .nil
    have hl := loopStart?_alike hfirst
    generalize loopStart? first = o at hl ⊢
    generalize loopStart? first' = o' at hl ⊢
    cases hl with
    | none => exact h.indices b ht.at hsound hone
    | @some p p' hl =>
      obtain ⟨v, start⟩ := p
      obtain ⟨v', start'⟩ := p'
      obtain ⟨rfl, hstart⟩ := hl
      exact h.iterated b v ht.at hsound hstart.pos hstart .nil hone
  | _ => exact agree_pure (references ht.at hsound .nil)

theorem ReadersAgree.indices_succ {pos pos' : Location} {name : String} {is is' : List Expr} (b : Bracket)
    (hp : R.place pos pos') (hname : (Lexeme.name name).Sound) (hi : List.Forall₂ (Expr.Alike R.place) is is') :
    R.Agree (readIndices R.src (depth + 1) pos name b is) (readIndices R.src' (depth + 1) pos' name b is')
      R.References := by
  rw [readIndices, readIndices]
  refine (agree_accept _).bind fun c c' hc => ?_
  subst hc
  split
  · exact h.expr.bind fun e e' he => h.indices b hp hname (.cons he hi)
  · exact (agree_expect _ _).discard.bind fun _ _ _ => agree_pure (references hp hname hi)

theorem ReadersAgree.iterated_succ {pos pos' : Location} {name : String} {rangePos rangePos' : Location}
    {start start' : Expr} {terms terms' : List Term} {is is' : List Expr} (b : Bracket) (v : String)
    (hp : R.place pos pos') (hname : (Lexeme.name name).Sound) (hr : R.place rangePos rangePos')
    (hs : start.Alike R.place start') (ht : List.Forall₂ (Term.Alike R.place) terms terms')
    (hi : List.Forall₂ (Expr.Alike R.place) is is') :
    R.Agree (readIterated R.src (depth + 1) pos name b v rangePos start terms is)
      (readIterated R.src' (depth + 1) pos' name b v rangePos' start' terms' is') R.References := by
  rw [readIterated, readIterated]
  refine (h.term hs).bind fun u u' hu => (agree_accept _).bind fun c c' hc => ?_
  have hts : List.Forall₂ (Term.Alike R.place) (u :: terms) (u' :: terms') := .cons hu ht
  subst hc
  split
  · exact h.expr.bind fun e e' he => h.iterated b v hp hname hr he hts (.cons he hi)
  · refine agree_peek.bind fun t t' htok => ?_
    dsimp only
    rw [all_eq_of_alike (fun _ _ hx => by cases hx <;> rfl) hts, htok.lexeme]
    split
    · refine agree_next.discard.bind fun _ _ _ => h.expr.bind fun body body' hbody => ?_
      refine (agree_expect _ _).discard.bind fun _ _ _ => agree_pure ?_
      exact references_reduction hp name v (.mk hr (List.forall₂_reverse_iff.mpr hts)) hbody
    · split
      · exact agree_next.discard.bind fun _ _ _ => agree_pure (references hp hname hi)
      · exact agree_fail htok

theorem ReadersAgree.term_succ {start start' : Expr} (hs : start.Alike R.place start') :
    R.Agree (readTerm R.src (depth + 1) start) (readTerm R.src' (depth + 1) start') (Term.Alike R.place) := by
  rw [readTerm, readTerm]
  refine agree_peek.bind fun t t' ht => ?_
  rw [← ht.lexeme]
  cases t.lexeme with
  | opening b =>
    refine agree_next.discard.bind fun _ _ _ => h.expr.bind fun step step' hstep => ?_
    exact (agree_expect _ _).discard.bind fun _ _ _ => h.expr.bind fun stop stop' hstop =>
      agree_pure (.stepped hs hstep hstop)
  | _ => exact agree_pure (.single hs)

end

variable (R) in
/-- **Expressions.** The same lexemes are read as expressions that are alike. -/
theorem readersAgree (depth : Nat) : R.ReadersAgree depth := by
  induction depth with
  | zero => exact readersAgree_zero R
  | succ depth ih =>
    exact ⟨ih.expr_succ, ih.operand_succ, ih.operators_succ, ih.tighter_succ, ih.group_succ, ih.reference_succ,
      ih.indices_succ, ih.iterated_succ, ih.term_succ⟩

/-! ## Commands -/

theorem agree_readWhole : R.Agree (readWhole R.src) (readWhole R.src') (Expr.Alike R.place) :=
  agree_nesting fun depth => (R.readersAgree depth).expr

theorem agree_readItem : R.Agree (readItem R.src) (readItem R.src') (Item.Alike R.place) := by
  rw [readItem, readItem]
  refine agree_peek.bind fun t t' ht => ?_
  rw [← ht.lexeme]
  cases t.lexeme with
  | text s => exact agree_next.discard.bind fun _ _ _ => agree_pure (.quoted s ht.at)
  | name | number | operator | caret | opening =>
    exact agree_readWhole.bind fun e e' he => agree_pure (.numeric ht.at he)
  | _ => exact agree_fail ht

theorem agree_readItems (depth : Nat) : ∀ {is is' : List Item}, List.Forall₂ (Item.Alike R.place) is is' →
    R.Agree (readItems R.src depth is) (readItems R.src' depth is') (List.Forall₂ (Item.Alike R.place)) := by
  induction depth with
  | zero => exact fun _ => agree_throw
  | succ depth ih =>
    intro is is' hi
    rw [readItems, readItems]
    refine agree_readItem.bind fun i i' hii => (agree_accept _).bind fun c c' hc => ?_
    subst hc
    split
    · exact ih (.cons hii hi)
    · exact agree_pure (List.forall₂_reverse_iff.mpr (.cons hii hi))

theorem agree_readTarget : R.Agree (readTarget R.src) (readTarget R.src')
    fun t t' => R.place t.pos t'.pos ∧ t.name = t'.name ∧ (Lexeme.name t.name).Sound ∧
      List.Forall₂ (Expr.Alike R.place) t.indices t'.indices := by
  rw [readTarget, readTarget]
  refine agree_peek.bind fun t t' ht => ?_
  refine agree_nesting (f := fun depth => readReference R.src depth >>= _)
      (g := fun depth => readReference R.src' depth >>= _) fun depth => ?_
  refine (R.readersAgree depth).reference.bind fun e e' ⟨he, hname⟩ => ?_
  cases he with
  | reference name hp hi => exact agree_pure ⟨hp, rfl, hname _ _ _ rfl, hi⟩
  | _ => exact agree_fail ht

theorem agree_readParams (depth : Nat) : ∀ params : List String,
    R.Agree (readParams depth params) (readParams depth params) Eq := by
  induction depth with
  | zero => exact fun _ => agree_throw
  | succ depth ih =>
    intro params
    rw [readParams]
    refine (agree_expectName _).bind fun p p' ⟨hp, _⟩ => (agree_accept _).bind fun c c' hc => ?_
    rw [hp]
    subst hc
    split
    · exact ih _
    · exact agree_pure rfl

theorem agree_readDefinition {pos pos' : Location} (hp : R.place pos pos') :
    R.Agree (readDefinition R.src pos) (readDefinition R.src' pos') (Verb.Alike R.place) := by
  rw [readDefinition, readDefinition]
  refine (agree_expectName _).bind fun ⟨name, t⟩ ⟨name', t'⟩ ⟨hname, _, hsound⟩ => ?_
  dsimp only at hname hsound
  subst hname
  have hbody : ∀ params, R.Agree (do
      discard (Reader.expect .afterDefined (.operator .eq))
      return Verb.define pos name params (← readWhole R.src)) (do
      discard (Reader.expect .afterDefined (.operator .eq))
      return Verb.define pos' name params (← readWhole R.src')) (Verb.Alike R.place) := fun params =>
    (agree_expect _ _).discard.bind fun _ _ _ => agree_readWhole.bind fun e e' he =>
      agree_pure (.define params hp hsound he)
  refine agree_peek.bind fun u u' hu => ?_
  rw [← hu.lexeme]
  cases u.lexeme with
  | opening b =>
    refine agree_next.discard.bind fun _ _ _ => ?_
    refine agree_nesting (f := fun depth => readParams depth [] >>= _)
      (g := fun depth => readParams depth [] >>= _) fun depth => ?_
    refine (agree_readParams depth []).bind fun ps ps' hps => (agree_expect _ _).discard.bind fun _ _ _ => ?_
    subst hps
    exact hbody ps
  | _ => exact hbody []

theorem agree_liftNumber {α : Type} (literal : String) (e : Except NumberFault α) :
    R.Agree (liftNumber literal e) (liftNumber literal e) fun a b => a = b ∧ e = .ok a := by
  cases e with
  | ok a => exact agree_pure ⟨rfl, rfl⟩
  | error fault => exact agree_throw

theorem agree_readTerms (depth : Nat) : ∀ {ts ts' : List Term}, List.Forall₂ (Term.Alike R.place) ts ts' →
    R.Agree (readTerms R.src depth ts) (readTerms R.src' depth ts') (List.Forall₂ (Term.Alike R.place)) := by
  induction depth with
  | zero => exact fun _ => agree_throw
  | succ depth ih =>
    intro ts ts' ht
    rw [readTerms, readTerms]
    refine agree_nesting (f := fun d => readWhole R.src >>= fun e => readTerm R.src d e >>= _)
      (g := fun d => readWhole R.src' >>= fun e => readTerm R.src' d e >>= _) fun d => ?_
    refine agree_readWhole.bind fun e e' he => ((R.readersAgree d).term he).bind fun t t' htt => ?_
    refine (agree_accept _).bind fun c c' hc => ?_
    subst hc
    split
    · exact ih (.cons htt ht)
    · exact agree_pure (List.forall₂_reverse_iff.mpr (.cons htt ht))

theorem agree_readRange : R.Agree (readRange R.src) (readRange R.src') (Range.Alike R.place) := by
  rw [readRange, readRange]
  refine agree_peek.bind fun t t' ht => ?_
  refine agree_nesting (f := fun depth => readTerms R.src depth [] >>= _)
      (g := fun depth => readTerms R.src' depth [] >>= _) fun depth => ?_
  refine (agree_readTerms depth .nil).bind fun ts ts' hts => agree_peek.bind fun u u' hu => ?_
  rw [hu.lexeme]
  split
  · exact agree_pure (.mk ht.at hts)
  · exact agree_fail hu

theorem agree_readGoal : R.Agree readGoal readGoal fun goal goal' => goal = goal' ∧ goal.Spelled := by
  rw [readGoal]
  refine agree_next.bind fun t t' ht => ?_
  rw [← ht.lexeme]
  cases t.lexeme with
  | keyword k => cases k with
    | step =>
      refine (agree_expectNumber _).bind fun s s' ⟨hs, hnumeral⟩ => ?_
      subst hs
      refine (agree_liftNumber s _).bind fun n n' ⟨hn, hliteral⟩ => agree_pure ⟨congrArg _ hn, ?_⟩
      exact StepNumber.spelled_of_ofLiteral hnumeral hliteral
    | part =>
      refine (agree_expectNumber _).bind fun s s' ⟨hs, _⟩ => ?_
      subst hs
      exact (agree_liftNumber s _).bind fun n n' hn => agree_pure ⟨congrArg _ hn.1, trivial⟩
    | _ => exact agree_fail ht
  | _ => exact agree_fail ht

theorem agree_readLoop : R.Agree (readLoop R.src) (readLoop R.src') (Loop.Alike R.place) := by
  rw [readLoop, readLoop]
  refine (agree_accept _).bind fun c c' hc => ?_
  subst hc
  split
  · refine (agree_expectName _).bind fun ⟨v, t⟩ ⟨v', t'⟩ ⟨hv, _, hsound⟩ => ?_
    dsimp only at hv hsound
    subst hv
    exact (agree_expect _ _).discard.bind fun _ _ _ => agree_readRange.bind fun r r' hr => agree_pure (.each hsound hr)
  · refine (agree_accept _).bind fun c c' hc => ?_
    subst hc
    split
    · exact agree_readWhole.bind fun e e' he => (agree_expect _ _).discard.bind fun _ _ _ => agree_pure (.times he)
    · exact agree_pure .once

theorem agree_readVerb {t t' : Token} (ht : R.Tokens t t') :
    R.Agree (readVerb R.src t) (readVerb R.src' t') (Verb.Alike R.place) := by
  rw [readVerb, readVerb, ← ht.lexeme]
  cases t.lexeme with
  | finish => exact agree_pure (.blank ht.at)
  | keyword k => cases k with
    | type =>
      refine agree_nesting (f := fun depth => readItems R.src depth [] >>= _)
        (g := fun depth => readItems R.src' depth [] >>= _) fun depth => ?_
      exact (agree_readItems depth .nil).bind fun is is' hi => agree_pure (.type ht.at hi)
    | set =>
      refine agree_readTarget.bind fun ⟨r, name, is⟩ ⟨r', name', is'⟩ ⟨hr, hname, hsound, hi⟩ => ?_
      dsimp only at hr hname hsound hi
      subst hname
      exact (agree_expect _ _).discard.bind fun _ _ _ => agree_readWhole.bind fun e e' he =>
        agree_pure (.set ht.at hr hsound hi he)
    | define => exact agree_readDefinition ht.at
    | perform =>
      refine agree_readGoal.bind fun goal goal' ⟨hg, hspelled⟩ => agree_readLoop.bind fun loop loop' hl => ?_
      subst hg
      exact agree_pure (.perform ht.at hspelled hl)
    | _ => exact agree_fail ht
  | _ => exact agree_fail ht

theorem agree_readCommand : R.Agree (readCommand R.src) (readCommand R.src') (Command.Alike R.place) := by
  rw [readCommand, readCommand]
  refine agree_next.bind fun t t' ht => (agree_readVerb ht).bind fun v v' hv => (agree_accept _).bind fun c c' hc => ?_
  subst hc
  split
  · exact agree_readWhole.bind fun e e' he => agree_pure ⟨ht.at, hv, .some he⟩
  · exact agree_pure ⟨ht.at, hv, .none⟩

/-- **Lines.** The same lexemes are read as lines that are alike. -/
theorem readLine_agree : R.Agree (readLine R.src) (readLine R.src') (Line.Alike R.place) := by
  rw [readLine, readLine]
  have hdirect : R.Agree (do
      let command ← readCommand R.src
      discard (Reader.expectKind .endOfCommand .period)
      return Line.direct command) (do
      let command ← readCommand R.src'
      discard (Reader.expectKind .endOfCommand .period)
      return Line.direct command) (Line.Alike R.place) :=
    agree_readCommand.bind fun c c' hc => (agree_expectKind _ _).discard.bind fun _ _ _ => agree_pure (.direct hc)
  refine agree_peek.bind fun t t' ht => ?_
  rw [← ht.lexeme]
  cases hlexeme : t.lexeme with
  | finish => exact agree_pure (.direct ⟨ht.at, .blank ht.at, .none⟩)
  | number literal =>
    refine agree_next.discard.bind fun _ _ _ => (agree_liftNumber literal _).bind fun n n' ⟨hn, hliteral⟩ => ?_
    subst hn
    refine agree_readCommand.bind fun c c' hc => (agree_expectKind _ _).discard.bind fun _ _ _ => ?_
    exact agree_pure (.stored n ht.at (StepNumber.spelled_of_ofLiteral (ht.number literal hlexeme) hliteral) hc)
  | _ => exact hdirect

end Rereading

end JossLang
