import JossLang.Proofs.Readers

/-!
# Where the words of a tree come from

Reading invents nothing: every name, every text and every number of a step in a tree that is read stands in the
line, and so does every lexeme that an error of reading names, but for the signs that the language itself asks
for. So what holds of all lexemes of a line holds of what is read from it: `parse_drawn`, `parse_blames`.
-/

namespace JossLang

def Lexeme.IsSign : Lexeme → Prop
  | .name _ | .number _ | .text _ | .other _ => False
  | _ => True

variable (P : Lexeme → Prop)

/-! ## Trees -/

mutual

/-- All names in a tree are drawn from lexemes of the given kind. -/
inductive Expr.Drawn : Expr → Prop where
  | number {pos : Location} {x : Float} : Expr.Drawn (.number pos x)
  | reference {pos : Location} {name : String} {indices : List Expr} : P (.name name) → (∀ i ∈ indices, Expr.Drawn i) →
      Expr.Drawn (.reference pos name indices)
  | binary {pos : Location} {o : Operator} {lhs rhs : Expr} : Expr.Drawn lhs → Expr.Drawn rhs →
      Expr.Drawn (.binary pos o lhs rhs)
  | conditional {pos : Location} {branches : List Branch} {otherwise : Expr} : (∀ b ∈ branches, Branch.Drawn b) →
      Expr.Drawn otherwise → Expr.Drawn (.conditional pos branches otherwise)
  | reduction {pos rangePos : Location} {name v : String} {terms : List Term} {body : Expr} : P (.name name) →
      P (.name v) → (∀ t ∈ terms, Term.Drawn t) → Expr.Drawn body →
      Expr.Drawn (.reduction pos name v (.mk rangePos terms) body)

inductive Branch.Drawn : Branch → Prop where
  | mk {condition result : Expr} : Expr.Drawn condition → Expr.Drawn result → Branch.Drawn (.mk condition result)

inductive Term.Drawn : Term → Prop where
  | single {value : Expr} : Expr.Drawn value → Term.Drawn (.single value)
  | stepped {start step stop : Expr} : Expr.Drawn start → Expr.Drawn step → Expr.Drawn stop →
      Term.Drawn (.stepped start step stop)

end

def Range.Drawn (r : Range) : Prop := ∀ t ∈ r.terms, t.Drawn P

def Item.Drawn : Item → Prop
  | .quoted _ text => P (.text text)
  | .numeric _ e => e.Drawn P

structure Target.Drawn (t : Target) : Prop where
  name : P (.name t.name)
  indices : ∀ i ∈ t.indices, i.Drawn P

def StepNumber.Drawn (n : StepNumber) : Prop := ∃ literal, P (.number literal) ∧ StepNumber.ofLiteral literal = .ok n

def Goal.Drawn : Goal → Prop
  | .step n => n.Drawn P
  | .part p => ∃ literal, P (.number literal) ∧ partOf literal = .ok p

def Loop.Drawn : Loop → Prop
  | .once => True
  | .times count => count.Drawn P
  | .each v range => P (.name v) ∧ range.Drawn P

def Verb.Drawn : Verb → Prop
  | .blank _ => True
  | .type _ items => ∀ i ∈ items, i.Drawn P
  | .set _ target value => target.Drawn P ∧ value.Drawn P
  | .define _ name params body => P (.name name) ∧ (∀ p ∈ params, P (.name p)) ∧ body.Drawn P
  | .perform _ goal loop => goal.Drawn P ∧ loop.Drawn P

structure Command.Drawn (c : Command) : Prop where
  verb : c.verb.Drawn P
  guard : ∀ e ∈ c.guard, e.Drawn P

def Line.Drawn : Line → Prop
  | .direct c => c.Drawn P
  | .stored _ n c => n.Drawn P ∧ c.Drawn P

def ParseCause.Drawn : ParseCause → Prop
  | .unexpected _ wanted found => (∀ l, wanted = .lexeme l → l.IsSign) ∧ P found
  | .noVerb l | .notTypable l | .notAnOperand l | .unknownOperator l | .noIteratedBody l | .unfinishedRange l => P l
  | .badNumber _ literal => P (.number literal)
  | .raised _ => False
  | .notACommand _ | .noDoTarget | .iteratedTarget | .tooDeep => True

/-! ## Readers -/

structure Stream.Offers (s : Stream) : Prop where
  rest : ∀ t ∈ s.rest, P t.lexeme
  finish : P s.finish.lexeme

def Draws {α : Type} (r : Reader α) (Q : α → Prop) : Prop := ∀ s, s.Offers P →
  match r.run s with
  | (.ok a, s') => Q a ∧ s'.Offers P
  | (.error e, _) => e.cause.Drawn P

variable {P} {α β : Type}

theorem Draws.bind {r : Reader α} {f : α → Reader β} {Q : α → Prop} {R : β → Prop} (h : Draws P r Q)
    (hf : ∀ a, Q a → Draws P (f a) R) : Draws P (r >>= f) R := by
  intro s hs
  have hr := h s hs
  rw [run_bind]
  generalize r.run s = x at hr
  obtain ⟨e | a, s'⟩ := x
  · exact hr
  · exact hf a hr.1 s' hr.2

theorem draws_pure {a : α} {Q : α → Prop} (h : Q a) : Draws P (pure a) Q := fun _ hs => ⟨h, hs⟩

theorem draws_throw {e : ParseError} {Q : α → Prop} (h : e.cause.Drawn P) : Draws P (throw e) Q := fun _ _ => h

theorem draws_fail {cause : ParseCause} {t : Token} {Q : α → Prop} (h : cause.Drawn P) : Draws P (Reader.fail cause t) Q :=
  draws_throw h

theorem Draws.discard {r : Reader α} {Q : α → Prop} (h : Draws P r Q) : Draws P (discard r) fun _ => True := by
  rw [Functor.discard]
  exact h.bind fun _ _ => draws_pure trivial

/-- The bound on nesting depends on what is left, but any bound will do. -/
theorem draws_nesting {f : Nat → Reader α} {Q : α → Prop} (h : ∀ depth, Draws P (f depth) Q) :
    Draws P (do f (nestingBound (← get))) Q := fun s hs => h (nestingBound s) s hs

theorem Stream.Offers.peek {s : Stream} (h : s.Offers P) : P s.peek.lexeme := by
  rw [Stream.peek]
  cases hr : s.rest with
  | nil => exact h.finish
  | cons t ts => exact h.rest t (by simp [hr])

theorem Stream.Offers.next {s : Stream} (h : s.Offers P) : s.next.2.Offers P :=
  ⟨fun t ht => h.rest t (List.mem_of_mem_tail ht), h.finish⟩

theorem draws_peek : Draws P Reader.peek fun t => P t.lexeme := fun _ hs => ⟨hs.peek, hs⟩

theorem draws_next : Draws P Reader.next fun t => P t.lexeme := fun _ hs => ⟨hs.peek, hs.next⟩

theorem draws_accept (l : Lexeme) : Draws P (Reader.accept l) fun _ => True := by
  refine draws_peek.bind fun t _ => ?_
  split
  · exact draws_next.discard.bind fun _ _ => draws_pure trivial
  · exact draws_pure trivial

theorem draws_expect (place : Place) {l : Lexeme} (hl : l.IsSign) : Draws P (Reader.expect place l) fun _ => True := by
  refine draws_next.bind fun t ht => ?_
  split
  · exact draws_pure trivial
  · refine draws_fail ⟨?_, ht⟩
    rintro _ ⟨⟩
    exact hl

theorem draws_expectKind (place : Place) (k : Kind) : Draws P (Reader.expectKind place k) fun _ => True := by
  refine draws_next.bind fun t ht => ?_
  split
  · exact draws_pure trivial
  · exact draws_fail ⟨nofun, ht⟩

theorem draws_expectName (place : Place) : Draws P (Reader.expectName place) fun p => P (.name p.1) := by
  refine draws_next.bind fun t ht => ?_
  split
  · next s hs => exact draws_pure (hs ▸ ht)
  · exact draws_fail ⟨nofun, ht⟩

theorem draws_expectNumber (place : Place) : Draws P (Reader.expectNumber place) fun s => P (.number s) := by
  refine draws_next.bind fun t ht => ?_
  split
  · next s hs => exact draws_pure (hs ▸ ht)
  · exact draws_fail ⟨nofun, ht⟩

theorem draws_nextPrecedence : Draws P nextPrecedence fun _ => True := by
  refine draws_peek.bind fun t ht => ?_
  split
  · exact draws_pure trivial
  · next hl => exact draws_fail (show P .caret from hl ▸ ht)
  · exact draws_pure trivial

/-! ## Expressions -/

theorem Expr.Drawn.loopStart {e : Expr} (he : e.Drawn P) {v : String} {start : Expr} (h : loopStart? e = some (v, start)) :
    P (.name v) ∧ start.Drawn P := by
  unfold loopStart? at h
  split at h
  · cases h
    cases he with
    | binary hl hr => cases hl with
      | reference hv _ => exact ⟨hv, hr⟩
  · cases h

variable (src : Source)

structure ReadersDraw (P : Lexeme → Prop) (depth : Nat) : Prop where
  expr : Draws P (readExpr src depth) (Expr.Drawn P)
  operand : Draws P (readOperand src depth) (Expr.Drawn P)
  operators : ∀ lhs least, lhs.Drawn P → Draws P (readOperators src depth lhs least) (Expr.Drawn P)
  tighter : ∀ rhs than, rhs.Drawn P → Draws P (readTighter src depth rhs than) (Expr.Drawn P)
  group : ∀ pos b e branches, e.Drawn P → (∀ branch ∈ branches, branch.Drawn P) →
    Draws P (readGroup src depth pos b e branches) (Expr.Drawn P)
  reference : Draws P (readReference src depth) (Expr.Drawn P)
  indices : ∀ pos name b is, P (.name name) → (∀ i ∈ is, i.Drawn P) →
    Draws P (readIndices src depth pos name b is) (Expr.Drawn P)
  iterated : ∀ pos name b v rangePos start terms is, P (.name name) → P (.name v) → start.Drawn P →
    (∀ t ∈ terms, t.Drawn P) → (∀ i ∈ is, i.Drawn P) →
    Draws P (readIterated src depth pos name b v rangePos start terms is) (Expr.Drawn P)
  term : ∀ start, start.Drawn P → Draws P (readTerm src depth start) (Term.Drawn P)

theorem readersDraw_zero : ReadersDraw src P 0 where
  expr := draws_throw trivial
  operand := draws_throw trivial
  operators _ _ _ := draws_throw trivial
  tighter _ _ _ := draws_throw trivial
  group _ _ _ _ _ _ := draws_throw trivial
  reference := draws_throw trivial
  indices _ _ _ _ _ _ := draws_throw trivial
  iterated _ _ _ _ _ _ _ _ _ _ _ _ _ := draws_throw trivial
  term _ _ := draws_throw trivial

section
variable {src} {depth : Nat} (h : ReadersDraw src P depth)
include h

theorem ReadersDraw.expr_succ : Draws P (readExpr src (depth + 1)) (Expr.Drawn P) := by
  rw [readExpr]
  exact h.operand.bind fun lhs hlhs => h.operators lhs 0 hlhs

theorem ReadersDraw.operand_succ : Draws P (readOperand src (depth + 1)) (Expr.Drawn P) := by
  have hsigned : ∀ o pos, Draws P (do
      discard Reader.next
      return Expr.binary pos o (.number pos 0) (← readOperand src depth)) (Expr.Drawn P) := fun o pos =>
    draws_next.discard.bind fun _ _ => h.operand.bind fun e he => draws_pure (.binary .number he)
  rw [readOperand]
  refine draws_peek.bind fun t ht => ?_
  split
  · exact draws_next.discard.bind fun _ _ => draws_pure .number
  · exact h.reference
  · exact draws_next.discard.bind fun _ _ => h.expr.bind fun e he => h.group _ _ e [] he (List.forall_mem_nil _)
  · exact hsigned _ _
  · exact hsigned _ _
  · exact draws_fail ht

theorem ReadersDraw.operators_succ (lhs : Expr) (least : Nat) (hlhs : lhs.Drawn P) :
    Draws P (readOperators src (depth + 1) lhs least) (Expr.Drawn P) := by
  rw [readOperators]
  refine draws_nextPrecedence.bind fun p _ => ?_
  split
  · exact draws_pure hlhs
  · split
    · exact draws_pure hlhs
    · exact draws_next.discard.bind fun _ _ => h.operand.bind fun a ha => (h.tighter a _ ha).bind fun rhs hrhs =>
        h.operators _ least (.binary hlhs hrhs)

theorem ReadersDraw.tighter_succ (rhs : Expr) (than : Nat) (hrhs : rhs.Drawn P) :
    Draws P (readTighter src (depth + 1) rhs than) (Expr.Drawn P) := by
  rw [readTighter]
  refine draws_nextPrecedence.bind fun p _ => ?_
  split
  · exact draws_pure hrhs
  · split
    · exact (h.operators rhs _ hrhs).bind fun e he => h.tighter e than he
    · exact draws_pure hrhs

theorem ReadersDraw.group_succ (pos : Location) (b : Bracket) (e : Expr) (branches : List Branch) (he : e.Drawn P)
    (hb : ∀ branch ∈ branches, branch.Drawn P) : Draws P (readGroup src (depth + 1) pos b e branches) (Expr.Drawn P) := by
  rw [readGroup]
  refine (draws_accept _).bind fun c _ => ?_
  split
  · refine h.expr.bind fun result hresult => (draws_expectKind _ _).discard.bind fun _ _ => ?_
    refine h.expr.bind fun e' he' => ?_
    exact h.group pos b e' _ he' (List.forall_mem_cons.mpr ⟨.mk he hresult, hb⟩)
  · refine (draws_expect _ (by trivial)).discard.bind fun _ _ => draws_pure ?_
    split
    · exact he
    · exact .conditional (fun branch hm => hb branch (List.mem_reverse.mp hm)) he

theorem ReadersDraw.reference_succ : Draws P (readReference src (depth + 1)) (Expr.Drawn P) := by
  rw [readReference]
  refine (draws_expectName _).bind fun ⟨name, t⟩ hname => draws_peek.bind fun t' _ => ?_
  split
  · refine draws_next.discard.bind fun _ _ => h.expr.bind fun first hfirst => ?_
    have hone : ∀ i ∈ [first], i.Drawn P := List.forall_mem_singleton.mpr hfirst
    split
    · next v start hstart =>
      obtain ⟨hv, hs⟩ := hfirst.loopStart hstart
      exact h.iterated _ name _ v _ start [] [first] hname hv hs (List.forall_mem_nil _) hone
    · exact h.indices _ name _ [first] hname hone
  · exact draws_pure (.reference hname (List.forall_mem_nil _))

theorem ReadersDraw.indices_succ (pos : Location) (name : String) (b : Bracket) (is : List Expr) (hname : P (.name name))
    (hi : ∀ i ∈ is, i.Drawn P) : Draws P (readIndices src (depth + 1) pos name b is) (Expr.Drawn P) := by
  rw [readIndices]
  refine (draws_accept _).bind fun c _ => ?_
  split
  · exact h.expr.bind fun e he => h.indices pos name b _ hname (List.forall_mem_cons.mpr ⟨he, hi⟩)
  · exact (draws_expect _ (by trivial)).discard.bind fun _ _ =>
      draws_pure (.reference hname fun i hm => hi i (List.mem_reverse.mp hm))

theorem ReadersDraw.iterated_succ (pos : Location) (name : String) (b : Bracket) (v : String) (rangePos : Location)
    (start : Expr) (terms : List Term) (is : List Expr) (hname : P (.name name)) (hv : P (.name v)) (hs : start.Drawn P)
    (ht : ∀ t ∈ terms, t.Drawn P) (hi : ∀ i ∈ is, i.Drawn P) :
    Draws P (readIterated src (depth + 1) pos name b v rangePos start terms is) (Expr.Drawn P) := by
  rw [readIterated]
  refine (h.term start hs).bind fun t htm => ?_
  have hts : ∀ u ∈ t :: terms, u.Drawn P := List.forall_mem_cons.mpr ⟨htm, ht⟩
  refine (draws_accept _).bind fun c _ => ?_
  split
  · exact h.expr.bind fun e he =>
      h.iterated pos name b v rangePos e _ _ hname hv he hts (List.forall_mem_cons.mpr ⟨he, hi⟩)
  · refine draws_peek.bind fun t' ht' => ?_
    dsimp only
    split
    · refine draws_next.discard.bind fun _ _ => h.expr.bind fun body hbody => ?_
      exact (draws_expect _ (by trivial)).discard.bind fun _ _ =>
        draws_pure (.reduction hname hv (fun u hm => hts u (List.mem_reverse.mp hm)) hbody)
    · split
      · exact draws_next.discard.bind fun _ _ =>
          draws_pure (.reference hname fun i hm => hi i (List.mem_reverse.mp hm))
      · exact draws_fail ht'

theorem ReadersDraw.term_succ (start : Expr) (hs : start.Drawn P) :
    Draws P (readTerm src (depth + 1) start) (Term.Drawn P) := by
  rw [readTerm]
  refine draws_peek.bind fun t _ => ?_
  split
  · exact draws_next.discard.bind fun _ _ => h.expr.bind fun step hstep => (draws_expect _ (by trivial)).discard.bind fun _ _ =>
      h.expr.bind fun stop hstop => draws_pure (.stepped hs hstep hstop)
  · exact draws_pure (.single hs)

end

theorem readersDraw (depth : Nat) : ReadersDraw src P depth := by
  induction depth with
  | zero => exact readersDraw_zero src
  | succ depth ih =>
    exact ⟨ih.expr_succ, ih.operand_succ, ih.operators_succ, ih.tighter_succ, ih.group_succ, ih.reference_succ,
      ih.indices_succ, ih.iterated_succ, ih.term_succ⟩

theorem draws_readWhole : Draws P (readWhole src) (Expr.Drawn P) := draws_nesting fun depth => (readersDraw src depth).expr

/-! ## Verbs -/

theorem draws_readItem : Draws P (readItem src) (Item.Drawn P) := by
  have hwhole : ∀ pos, Draws P (do return Item.numeric pos (← readWhole src)) (Item.Drawn P) := fun pos =>
    (draws_readWhole src).bind fun e he => draws_pure he
  rw [readItem]
  refine draws_peek.bind fun t ht => ?_
  split
  · next text hl => exact draws_next.discard.bind fun _ _ => draws_pure (show P (.text text) from hl ▸ ht)
  · exact hwhole _
  · exact hwhole _
  · exact hwhole _
  · exact hwhole _
  · exact hwhole _
  · exact draws_fail ht

theorem draws_readItems (depth : Nat) : ∀ acc : List Item, (∀ i ∈ acc, i.Drawn P) →
    Draws P (readItems src depth acc) fun is => ∀ i ∈ is, i.Drawn P := by
  induction depth with
  | zero => exact fun _ _ => draws_throw trivial
  | succ depth ih =>
    intro acc hacc
    rw [readItems]
    refine (draws_readItem src).bind fun i hi => (draws_accept _).bind fun c _ => ?_
    have hall : ∀ j ∈ i :: acc, j.Drawn P := List.forall_mem_cons.mpr ⟨hi, hacc⟩
    split
    · exact ih _ hall
    · exact draws_pure fun j hj => hall j (List.mem_reverse.mp hj)

theorem draws_readTarget : Draws P (readTarget src) (Target.Drawn P) := by
  rw [readTarget]
  refine draws_peek.bind fun t _ => ?_
  refine draws_nesting (f := fun depth => readReference src depth >>= _) fun depth => ?_
  refine (readersDraw src depth).reference.bind fun e he => ?_
  split
  · cases he with
    | reference hname hindices => exact draws_pure ⟨hname, hindices⟩
  · exact draws_fail trivial

theorem draws_readParams (depth : Nat) : ∀ acc : List String, (∀ p ∈ acc, P (.name p)) →
    Draws P (readParams depth acc) fun ps => ∀ p ∈ ps, P (.name p) := by
  induction depth with
  | zero => exact fun _ _ => draws_throw trivial
  | succ depth ih =>
    intro acc hacc
    rw [readParams]
    refine (draws_expectName _).bind fun p hp => (draws_accept _).bind fun c _ => ?_
    have hall : ∀ q ∈ p.1 :: acc, P (.name q) := List.forall_mem_cons.mpr ⟨hp, hacc⟩
    split
    · exact ih _ hall
    · exact draws_pure fun q hq => hall q (List.mem_reverse.mp hq)

theorem draws_readDefinition (pos : Location) : Draws P (readDefinition src pos) (Verb.Drawn P) := by
  rw [readDefinition]
  refine (draws_expectName _).bind fun p hname => draws_peek.bind fun t _ => ?_
  have hbody : ∀ params : List String, (∀ q ∈ params, P (.name q)) → Draws P (do
      discard (Reader.expect .afterDefined (.operator .eq))
      return Verb.define pos p.1 params (← readWhole src)) (Verb.Drawn P) := fun params hparams =>
    (draws_expect _ (by trivial)).discard.bind fun _ _ => (draws_readWhole src).bind fun body hb =>
      draws_pure ⟨hname, hparams, hb⟩
  split
  · refine draws_next.discard.bind fun _ _ => ?_
    refine draws_nesting (f := fun depth => readParams depth [] >>= _) fun depth => ?_
    refine (draws_readParams depth [] (List.forall_mem_nil _)).bind fun params hparams => ?_
    exact (draws_expect _ (by trivial)).discard.bind fun _ _ => hbody params hparams
  · exact hbody [] (List.forall_mem_nil _)

theorem draws_liftNumber {literal : String} (hl : P (.number literal)) (e : Except NumberFault α) :
    Draws P (liftNumber literal e) fun a => e = .ok a := by
  cases e with
  | ok a => exact draws_pure rfl
  | error fault => exact draws_throw hl

theorem draws_readGoal : Draws P readGoal (Goal.Drawn P) := by
  rw [readGoal]
  refine draws_next.bind fun t _ => ?_
  split
  · exact (draws_expectNumber _).bind fun s hs => (draws_liftNumber hs _).bind fun n hn => draws_pure ⟨s, hs, hn⟩
  · exact (draws_expectNumber _).bind fun s hs => (draws_liftNumber hs _).bind fun p hp => draws_pure ⟨s, hs, hp⟩
  · exact draws_fail trivial

theorem draws_readTerms (depth : Nat) : ∀ acc : List Term, (∀ t ∈ acc, t.Drawn P) →
    Draws P (readTerms src depth acc) fun ts => ∀ t ∈ ts, t.Drawn P := by
  induction depth with
  | zero => exact fun _ _ => draws_throw trivial
  | succ depth ih =>
    intro acc hacc
    rw [readTerms]
    refine draws_nesting (f := fun d => readWhole src >>= fun e => readTerm src d e >>= _) fun d => ?_
    refine (draws_readWhole src).bind fun e he => ((readersDraw src d).term e he).bind fun t ht => ?_
    have hall : ∀ u ∈ t :: acc, u.Drawn P := List.forall_mem_cons.mpr ⟨ht, hacc⟩
    refine (draws_accept _).bind fun c _ => ?_
    split
    · exact ih _ hall
    · exact draws_pure fun u hu => hall u (List.mem_reverse.mp hu)

theorem draws_readRange : Draws P (readRange src) (Range.Drawn P) := by
  rw [readRange]
  refine draws_peek.bind fun t _ => ?_
  refine draws_nesting (f := fun depth => readTerms src depth [] >>= _) fun depth => ?_
  refine (draws_readTerms src depth [] (List.forall_mem_nil _)).bind fun ts hts => draws_peek.bind fun after hafter => ?_
  split
  · exact draws_pure hts
  · exact draws_fail hafter

theorem draws_readLoop : Draws P (readLoop src) (Loop.Drawn P) := by
  rw [readLoop]
  refine (draws_accept _).bind fun c _ => ?_
  split
  · refine (draws_expectName _).bind fun p hp => (draws_expect _ (by trivial)).discard.bind fun _ _ => ?_
    exact (draws_readRange src).bind fun r hr => draws_pure ⟨hp, hr⟩
  · refine (draws_accept _).bind fun c _ => ?_
    split
    · exact (draws_readWhole src).bind fun e he => (draws_expect _ (by trivial)).discard.bind fun _ _ => draws_pure he
    · exact draws_pure trivial

theorem draws_readVerb {t : Token} (ht : P t.lexeme) : Draws P (readVerb src t) (Verb.Drawn P) := by
  rw [readVerb]
  split
  · exact draws_pure trivial
  · refine draws_nesting (f := fun depth => readItems src depth [] >>= _) fun depth => ?_
    exact (draws_readItems src depth [] (List.forall_mem_nil _)).bind fun is his => draws_pure his
  · refine (draws_readTarget src).bind fun target htarget => (draws_expect _ (by trivial)).discard.bind fun _ _ => ?_
    exact (draws_readWhole src).bind fun value hvalue => draws_pure ⟨htarget, hvalue⟩
  · exact draws_readDefinition src _
  · exact draws_readGoal.bind fun goal hg => (draws_readLoop src).bind fun loop hl => draws_pure ⟨hg, hl⟩
  · exact draws_fail trivial
  · exact draws_fail ht

/-! ## Lines -/

theorem draws_readCommand : Draws P (readCommand src) (Command.Drawn P) := by
  rw [readCommand]
  refine draws_next.bind fun t ht => (draws_readVerb src ht).bind fun v hv => (draws_accept _).bind fun c _ => ?_
  split
  · refine (draws_readWhole src).bind fun e he => draws_pure ⟨hv, ?_⟩
    rintro _ ⟨⟩
    exact he
  · exact draws_pure ⟨hv, nofun⟩

/-- **Lines** draw all that they say from their lexemes. -/
theorem draws_readLine : Draws P (readLine src) (Line.Drawn P) := by
  rw [readLine]
  refine draws_peek.bind fun t ht => ?_
  split
  · exact draws_pure ⟨trivial, nofun⟩
  · next literal hl =>
    have hliteral : P (.number literal) := hl ▸ ht
    refine draws_next.discard.bind fun _ _ => (draws_liftNumber hliteral _).bind fun n hn => ?_
    exact (draws_readCommand src).bind fun c hc => (draws_expectKind _ _).discard.bind fun _ _ =>
      draws_pure ⟨⟨literal, hliteral, hn⟩, hc⟩
  · exact (draws_readCommand src).bind fun c hc => (draws_expectKind _ _).discard.bind fun _ _ => draws_pure hc

section
variable {src} (hall : ∀ t ∈ tokensOf src.text, P t.lexeme) (hfinish : P .finish)
include hall hfinish

theorem parse_drawn {line : Line} (h : Line.parse src = .ok line) : line.Drawn P := by
  have hr := draws_readLine src (Stream.ofLine src.text) ⟨hall, hfinish⟩
  rw [Line.parse, Line.read] at h
  generalize (readLine src).run (Stream.ofLine src.text) = x at h hr
  obtain ⟨e | u, s⟩ := x
  · cases h
  · cases h
    exact hr.1

theorem parse_blames {e : ParseError} (h : Line.parse src = .error e) : e.cause.Drawn P := by
  have hr := draws_readLine src (Stream.ofLine src.text) ⟨hall, hfinish⟩
  rw [Line.parse, Line.read] at h
  generalize (readLine src).run (Stream.ofLine src.text) = x at h hr
  obtain ⟨e' | u, s⟩ := x
  · cases h
    exact hr
  · cases h

end

end JossLang
