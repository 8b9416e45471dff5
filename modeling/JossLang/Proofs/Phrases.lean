import JossLang.Command.Reading
import JossLang.Proofs.Boundaries
import JossLang.Proofs.OperatorTrees

/-!
# How expressions are written

An expression is written as a chain: atoms with an operator between any two. An atom is a number, a name, what stands
in brackets with or without a name in front, or one of these behind a sign. Each phrase is kept with the expression
that it stands for; where the nodes of an atom stand is left open.

Whatever is opened in a phrase is closed by a bracket of its own kind: `IsChain.closed`.
-/

namespace JossLang

structure Phrase where
  lexemes : List Lexeme
  expr : Expr

def chained (a : Phrase) (rest : List (Operator × Phrase)) : List Lexeme :=
  a.lexemes ++ rest.flatMap fun x => .operator x.1 :: x.2.lexemes

abbrev Chain := OperatorTree Phrase

namespace OperatorTree

def lexemes (t : Chain) : List Lexeme := chained t.first t.rest

def expr : Chain → Expr
  | atom a => a.expr
  | node o lhs rhs => .binary lhs.expr.pos o lhs.expr rhs.expr

@[simp] theorem lexemes_atom (a : Phrase) : lexemes (atom a) = a.lexemes := by simp [lexemes, chained, first, rest]

@[simp] theorem lexemes_node (o : Operator) (lhs rhs : Chain) :
    lexemes (node o lhs rhs) = lhs.lexemes ++ .operator o :: rhs.lexemes := by
  simp [lexemes, chained, first, rest]

end OperatorTree

/-! ## Branches and terms -/

structure BranchPhrase where
  condition : Chain
  result : Chain

namespace BranchPhrase

def chains (p : BranchPhrase) : List Chain := [p.condition, p.result]

def lexemes (p : BranchPhrase) : List Lexeme :=
  p.condition.lexemes ++ .colon :: (p.result.lexemes ++ [.semicolon])

def branch (p : BranchPhrase) : Branch := .mk p.condition.expr p.result.expr

end BranchPhrase

structure Stride where
  bracket : Bracket
  step : Chain
  stop : Chain

/-- A term of a range. In front of the start of the first one stands the loop variable. -/
structure TermPhrase where
  head : Chain
  start : Expr
  stride : Option Stride

namespace TermPhrase

def chains : TermPhrase → List Chain
  | ⟨head, _, none⟩ => [head]
  | ⟨head, _, some d⟩ => [head, d.step, d.stop]

def lexemes : TermPhrase → List Lexeme
  | ⟨head, _, none⟩ => head.lexemes
  | ⟨head, _, some d⟩ => head.lexemes ++ .opening d.bracket :: (d.step.lexemes ++ .closing d.bracket :: d.stop.lexemes)

def term : TermPhrase → Term
  | ⟨_, start, none⟩ => .single start
  | ⟨_, start, some d⟩ => .stepped start d.step.expr d.stop.expr

theorem head_mem_chains : ∀ p : TermPhrase, p.head ∈ p.chains
  | ⟨_, _, none⟩ => List.mem_cons_self
  | ⟨_, _, some _⟩ => List.mem_cons_self

end TermPhrase

def Iterates (v : String) : List TermPhrase → Prop
  | [] => False
  | p :: ps => loopStart? p.head.expr = some (v, p.start) ∧ ∀ q ∈ ps, q.start = q.head.expr

theorem Iterates.snoc {v : String} {ps : List TermPhrase} {p : TermPhrase} (h : Iterates v ps)
    (hp : p.start = p.head.expr) : Iterates v (ps ++ [p]) := by
  cases ps with
  | nil => exact h.elim
  | cons q ps =>
    obtain ⟨hq, hps⟩ := h
    exact ⟨hq, List.forall_mem_append.mpr ⟨hps, List.forall_mem_singleton.mpr hp⟩⟩

/-! ## Atoms and chains -/

def commaed (lists : List (List Lexeme)) : List Lexeme := lists.flatMap (· ++ [.comma])

mutual

/-- An operand as it is written. What stands in its brackets is written as a chain again. -/
inductive IsAtom : Phrase → Prop where
  | number (pos : Location) (s : String) : IsAtom ⟨[.number s], .number pos (Double.ofLiteral s.toList)⟩
  | name (pos : Location) (s : String) : IsAtom ⟨[.name s], .reference pos s []⟩
  | signed (pos : Location) {o : Operator} {a : Phrase} (ho : o = .add ∨ o = .sub) (ha : IsAtom a) :
      IsAtom ⟨.operator o :: a.lexemes, .binary pos o (.number pos 0) a.expr⟩
  | group (b : Bracket) {t : Chain} (ht : IsChain t) :
      IsAtom ⟨.opening b :: (t.lexemes ++ [.closing b]), t.expr⟩
  | conditional (pos : Location) (b : Bracket) {ps : List BranchPhrase} {t : Chain} (hne : ps ≠ [])
      (hp : ∀ p ∈ ps, ∀ u ∈ p.chains, IsChain u) (ht : IsChain t) :
      IsAtom ⟨.opening b :: (ps.flatMap (·.lexemes) ++ (t.lexemes ++ [.closing b])),
        .conditional pos (ps.map (·.branch)) t.expr⟩
  | call (pos : Location) (name : String) (b : Bracket) (init : List Chain) (last : Chain)
      (hi : ∀ t ∈ init ++ [last], IsChain t) :
      IsAtom ⟨.name name :: .opening b :: (commaed (init.map (·.lexemes)) ++ (last.lexemes ++ [.closing b])),
        .reference pos name ((init ++ [last]).map (·.expr))⟩
  | reduction (pos rangePos : Location) (name v : String) (b : Bracket) (init : List TermPhrase) (last : TermPhrase)
      {body : Chain} (hv : Iterates v (init ++ [last])) (hp : ∀ p ∈ init ++ [last], ∀ u ∈ p.chains, IsChain u)
      (hb : IsChain body) :
      IsAtom ⟨.name name :: .opening b ::
          (commaed (init.map (·.lexemes)) ++ (last.lexemes ++ .colon :: (body.lexemes ++ [.closing b]))),
        .reduction pos name v (.mk rangePos ((init ++ [last]).map (·.term))) body.expr⟩

inductive IsChain : Chain → Prop where
  | mk {t : Chain} (ho : t.Ordered) (ha : ∀ a ∈ t.atoms, IsAtom a) : IsChain t

end

theorem isChain_atom {a : Phrase} (ha : IsAtom a) : IsChain (.atom a) :=
  .mk trivial (by simpa using ha)

theorem IsChain.node {o : Operator} {lhs rhs : Chain} (hl : IsChain lhs) (hr : IsChain rhs)
    (hloose : ∀ q ∈ lhs.top?, o.precedence ≤ q) (htight : ∀ q ∈ rhs.top?, o.precedence < q) :
    IsChain (.node o lhs rhs) := by
  cases hl with
  | mk hol hal =>
    cases hr with
    | mk hor har =>
      refine .mk ⟨hloose, htight, hol, hor⟩ ?_
      rw [OperatorTree.atoms_node]
      exact List.forall_mem_append.mpr ⟨hal, har⟩

/-- Without steps the terms are written like indices. -/
theorem IsAtom.call_of_terms (pos : Location) (name : String) (b : Bracket) {init : List TermPhrase} {last : TermPhrase}
    (hbare : ∀ p ∈ init ++ [last], p.lexemes = p.head.lexemes) (hp : ∀ p ∈ init ++ [last], ∀ u ∈ p.chains, IsChain u) :
    IsAtom ⟨.name name :: .opening b :: (commaed (init.map (·.lexemes)) ++ (last.lexemes ++ [.closing b])),
      .reference pos name ((init.map (·.head) ++ [last.head]).map (·.expr))⟩ := by
  obtain ⟨hinit, hlast⟩ := List.forall_mem_append.mp hbare
  have hheads : ∀ t ∈ (init ++ [last]).map (·.head), IsChain t :=
    List.forall_mem_map.mpr fun p hm => hp p hm p.head p.head_mem_chains
  rw [List.map_append] at hheads
  have hcall := IsAtom.call pos name b (init.map (·.head)) last.head hheads
  rw [List.map_map] at hcall
  rwa [hlast last List.mem_cons_self, List.map_congr_left hinit]

/-! ## Brackets -/

def brackets (ls : List Lexeme) : List (Boundary Bracket) :=
  ls.filterMap fun
    | .opening b => some (.opening b)
    | .closing b => some (.closing b)
    | _ => none

/-- Whatever is opened is closed by a bracket of its own kind, and the pairs nest. -/
def Closed (ls : List Lexeme) : Prop := Boundary.Balanced (brackets ls)

theorem closed_nil : Closed [] := .nil

theorem Closed.append {ls ms : List Lexeme} (hl : Closed ls) (hm : Closed ms) : Closed (ls ++ ms) := by
  rw [Closed, brackets, List.filterMap_append]
  exact Boundary.Balanced.append hl hm

theorem Closed.enclosed (b : Bracket) {ls ms : List Lexeme} (hl : Closed ls) (hm : Closed ms) :
    Closed (.opening b :: (ls ++ .closing b :: ms)) := by
  rw [Closed, brackets, List.filterMap_cons, List.filterMap_append, List.filterMap_cons]
  exact .pair hl hm

theorem Closed.flatMap {α : Type} {f : α → List Lexeme} {as : List α} (h : ∀ a ∈ as, Closed (f a)) :
    Closed (as.flatMap f) := by
  induction as with
  | nil => exact closed_nil
  | cons a as ih =>
    obtain ⟨ha, has⟩ := List.forall_mem_cons.mp h
    exact ha.append (ih has)

theorem Closed.cons {l : Lexeme} (hl : brackets [l] = []) {ls : List Lexeme} (h : Closed ls) : Closed (l :: ls) := by
  have hone : Closed [l] := by rw [Closed, hl]; exact .nil
  exact hone.append h

theorem Closed.commaed {α : Type} {f : α → List Lexeme} {as : List α} (h : ∀ a ∈ as, Closed (f a)) :
    Closed (commaed (as.map f)) :=
  Closed.flatMap fun ls hls => by
    obtain ⟨a, ha, rfl⟩ := List.mem_map.mp hls
    exact (h a ha).append (.cons rfl closed_nil)

theorem BranchPhrase.closed {p : BranchPhrase} (h : ∀ t ∈ p.chains, Closed t.lexemes) : Closed p.lexemes :=
  (h p.condition (by simp [chains])).append
    (.cons rfl ((h p.result (by simp [chains])).append (.cons rfl closed_nil)))

theorem TermPhrase.closed : ∀ {p : TermPhrase}, (∀ t ∈ p.chains, Closed t.lexemes) → Closed p.lexemes
  | ⟨head, _, none⟩, h => h head (by simp [chains])
  | ⟨head, _, some d⟩, h =>
    (h head (by simp [chains])).append
      (.enclosed d.bracket (h d.step (by simp [chains])) (h d.stop (by simp [chains])))

mutual

theorem IsAtom.closed {a : Phrase} : IsAtom a → Closed a.lexemes
  | .number _ _ => .cons rfl closed_nil
  | .name _ _ => .cons rfl closed_nil
  | .signed _ _ ha => .cons rfl ha.closed
  | .group b ht => .enclosed b ht.closed closed_nil
  | .conditional _ b _ hp ht => by
    have hps : Closed _ := Closed.flatMap fun p hm => BranchPhrase.closed fun u hu => (hp p hm u hu).closed
    simpa using (hps.append ht.closed).enclosed b closed_nil
  | .call _ _ b init last hi => by
    obtain ⟨hinit, hlast⟩ := List.forall_mem_append.mp fun t hm => (hi t hm).closed
    have hargs := (Closed.commaed hinit).append (hlast last List.mem_cons_self)
    simpa using (hargs.enclosed b closed_nil).cons rfl
  | .reduction _ _ _ _ b init last _ hp hb => by
    obtain ⟨hinit, hlast⟩ := List.forall_mem_append.mp fun p hm => TermPhrase.closed fun u hu => (hp p hm u hu).closed
    have hterms := (Closed.commaed hinit).append (hlast last List.mem_cons_self)
    simpa using ((hterms.append (hb.closed.cons (l := .colon) rfl)).enclosed b closed_nil).cons rfl

theorem IsChain.closed {t : Chain} : IsChain t → Closed t.lexemes
  | .mk _ ha => by
    obtain ⟨hfirst, hrest⟩ := List.forall_mem_cons.mp fun a hm => (ha a hm).closed
    rw [List.forall_mem_map] at hrest
    exact hfirst.append (Closed.flatMap fun x hx => (hrest x hx).cons rfl)

end

end JossLang
