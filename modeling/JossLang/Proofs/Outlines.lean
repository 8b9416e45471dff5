import JossLang.Proofs.Slices

/-!
# Outlines

The outline of a line is its tree with nothing left but the places. `Within` says that a tree of places keeps to a
stretch of columns and that parts of a node stand one behind the other in it; what follows for the walk through the tree
is `Within.ordered`.
-/

namespace JossLang

/-- A tree of places: where a node stands, and its parts as they come in the line. -/
inductive Outline where
  | node (pos : Location) (parts : List Outline)

namespace Outline

def pos : Outline → Location
  | node pos _ => pos

def parts : Outline → List Outline
  | node _ parts => parts

@[simp] theorem pos_node (pos : Location) (parts : List Outline) : (node pos parts).pos = pos := rfl

mutual

def nodes : Outline → List Outline
  | node pos parts => node pos parts :: nodesAll parts

def nodesAll : List Outline → List Outline
  | [] => []
  | o :: os => o.nodes ++ nodesAll os

end

def walk (o : Outline) : List Location := o.nodes.map pos

end Outline

/-! ## Outlines of lines

A branch and a term have no place of their own: their expressions are parts of what they belong to. -/

mutual

def Expr.outline : Expr → Outline
  | .number pos _ => .node pos []
  | .reference pos _ indices => .node pos (outlineAll indices)
  | .binary pos _ lhs rhs => .node pos [lhs.outline, rhs.outline]
  | .conditional pos branches otherwise => .node pos (outlineBranches branches ++ [otherwise.outline])
  | .reduction pos _ _ range body => .node pos [range.outline, body.outline]

def outlineAll : List Expr → List Outline
  | [] => []
  | e :: es => e.outline :: outlineAll es

def Branch.outlines : Branch → List Outline
  | .mk condition result => [condition.outline, result.outline]

def outlineBranches : List Branch → List Outline
  | [] => []
  | b :: bs => b.outlines ++ outlineBranches bs

def Range.outline : Range → Outline
  | .mk pos terms => .node pos (outlineTerms terms)

def Term.outlines : Term → List Outline
  | .single value => [value.outline]
  | .stepped start step stop => [start.outline, step.outline, stop.outline]

def outlineTerms : List Term → List Outline
  | [] => []
  | t :: ts => t.outlines ++ outlineTerms ts

end

@[simp] theorem Expr.outline_pos (e : Expr) : e.outline.pos = e.pos := by
  cases e <;> simp only [Expr.outline, Outline.pos_node, Expr.pos]

theorem outlineAll_eq (es : List Expr) : outlineAll es = es.map Expr.outline := by
  induction es with
  | nil => rfl
  | cons e es ih => rw [outlineAll, ih, List.map_cons]

theorem outlineBranches_eq (bs : List Branch) : outlineBranches bs = bs.flatMap Branch.outlines := by
  induction bs with
  | nil => rfl
  | cons b bs ih => rw [outlineBranches, ih, List.flatMap_cons]

theorem outlineTerms_eq (ts : List Term) : outlineTerms ts = ts.flatMap Term.outlines := by
  induction ts with
  | nil => rfl
  | cons t ts ih => rw [outlineTerms, ih, List.flatMap_cons]

def Item.outline : Item → Outline
  | quoted pos _ => .node pos []
  | numeric pos value => .node pos [value.outline]

def Target.outline (t : Target) : Outline := .node t.pos (t.indices.map Expr.outline)

def Loop.outlines : Loop → List Outline
  | once => []
  | times count => [count.outline]
  | each _ range => [range.outline]

def Verb.outline : Verb → Outline
  | blank pos => .node pos []
  | type pos items => .node pos (items.map Item.outline)
  | set pos target value => .node pos [target.outline, value.outline]
  | define pos _ _ body => .node pos [body.outline]
  | perform pos _ loop => .node pos loop.outlines

def Command.outline (c : Command) : Outline := .node c.pos (c.verb.outline :: (c.guard.map Expr.outline).toList)

def Line.outline : Line → Outline
  | direct c => c.outline
  | stored pos _ c => .node pos [c.outline]

/-! ## Columns of a line -/

def Stream.ahead (s : Stream) : List Token := s.rest ++ [s.finish]

/-- What a place in a line can point at: its tokens, and its end behind them. -/
def Source.marks (src : Source) : List Token := (Stream.ofLine src.text).ahead

theorem Slices.stop_le {column : Nat} {ts : List Token} {cs : List Char} (h : Slices column ts cs) :
    ∀ t ∈ ts, t.stop ≤ column + cs.length := by
  induction h with
  | nil => nofun
  | blank _ _ ih =>
    intro t ht
    have := ih t ht
    rw [List.length_cons]
    omega
  | @token column l ts cs _ _ ih =>
    rw [List.length_append]
    refine List.forall_mem_cons.mpr ⟨?_, fun t ht => ?_⟩
    · show column + l.chars.length ≤ _
      omega
    · have := ih t ht
      omega

theorem slices_tokensOf {text : List Char} (hc : isComment text = false) : Slices 1 (tokensOf text) text :=
  tokensOf_eq hc ▸ slices_tokensFrom 1 text

theorem Source.marks_pairwise (src : Source) : src.marks.Pairwise fun t u => t.column < u.column := by
  have hmarks : src.marks = tokensOf src.text ++ [⟨.finish, src.text.length + 1⟩] := rfl
  rw [hmarks]
  cases hc : isComment src.text with
  | true =>
    rw [tokensOf, if_pos hc]
    exact List.pairwise_singleton _ _
  | false =>
    have hslices := slices_tokensOf hc
    have hlong : ∀ t ∈ tokensOf src.text, t.column < t.stop := fun t ht =>
      Nat.lt_add_of_pos_right (List.length_pos_iff.mpr (hslices.chars_ne_nil t ht))
    rw [List.pairwise_append]
    refine ⟨?_, List.pairwise_singleton _ _, fun t ht u hu => ?_⟩
    · exact hslices.pairwise.imp_of_mem fun ht _ hstop => lt_of_lt_of_le (hlong _ ht) hstop
    · have hstop := hslices.stop_le t ht
      have hcolumn := hlong t ht
      rw [List.mem_singleton.mp hu]
      dsimp only
      omega

/-! ## Stretches of columns -/

section
variable (src : Source)

mutual

inductive Outline.Within : Nat → Nat → Outline → Prop where
  | node {lo hi : Nat} {t : Token} {parts : List Outline} (ht : t ∈ src.marks) (hlo : lo ≤ t.column) (hhi : t.column < hi)
      (hparts : Outline.Row t.column hi parts) : Outline.Within lo hi (.node (src.at t) parts)

inductive Outline.Row : Nat → Nat → List Outline → Prop where
  | nil {lo hi : Nat} (h : lo ≤ hi) : Outline.Row lo hi []
  | cons {lo mid hi : Nat} {o : Outline} {os : List Outline} (h : Outline.Within lo mid o) (hs : Outline.Row mid hi os) :
      Outline.Row lo hi (o :: os)

end

end

namespace Outline

variable {src : Source} {lo mid hi lo' hi' : Nat} {o : Outline} {os os' : List Outline}

theorem Within.le_pos (h : Within src lo hi o) : lo ≤ o.pos.column := by
  cases h with
  | node _ hlo _ _ => exact hlo

theorem Within.pos_lt (h : Within src lo hi o) : o.pos.column < hi := by
  cases h with
  | node _ _ hhi _ => exact hhi

theorem Within.lt (h : Within src lo hi o) : lo < hi := lt_of_le_of_lt h.le_pos h.pos_lt

theorem Row.le (h : Row src lo hi os) : lo ≤ hi := by
  induction os generalizing lo with
  | nil =>
    cases h with
    | nil h => exact h
  | cons o os ih =>
    cases h with
    | cons h hs => exact h.lt.le.trans (ih hs)

theorem Row.lt (h : Row src lo hi os) (hne : os ≠ []) : lo < hi := by
  cases h with
  | nil => exact absurd rfl hne
  | cons h hs => exact lt_of_lt_of_le h.lt hs.le

theorem Row.widen_right (h : Row src lo hi os) (hhi : hi ≤ hi') : Row src lo hi' os := by
  induction os generalizing lo with
  | nil => exact .nil (h.le.trans hhi)
  | cons o os ih =>
    cases h with
    | cons h hs => exact .cons h (ih hs)

theorem Within.widen (h : Within src lo hi o) (hlo : lo' ≤ lo) (hhi : hi ≤ hi') : Within src lo' hi' o := by
  cases h with
  | node ht hle hlt hparts => exact .node ht (hlo.trans hle) (lt_of_lt_of_le hlt hhi) (hparts.widen_right hhi)

theorem Row.widen (h : Row src lo hi os) (hlo : lo' ≤ lo) (hhi : hi ≤ hi') : Row src lo' hi' os := by
  cases h with
  | nil h => exact .nil ((hlo.trans h).trans hhi)
  | cons h hs => exact .cons (h.widen hlo le_rfl) (hs.widen_right hhi)

theorem Row.append (h : Row src lo mid os) (h' : Row src mid hi os') : Row src lo hi (os ++ os') := by
  induction os generalizing lo with
  | nil => exact h'.widen h.le le_rfl
  | cons o os ih =>
    cases h with
    | cons h hs => exact .cons h (ih hs)

theorem Within.row (h : Within src lo hi o) : Row src lo hi [o] := .cons h (.nil le_rfl)

theorem Row.group (h : Row src lo hi (o :: os)) : Within src lo hi (.node o.pos (o :: os)) := by
  cases h with
  | cons h hs =>
    cases h with
    | node ht hlo hhi hparts =>
      exact .node ht hlo (lt_of_lt_of_le hhi hs.le) (.cons (.node ht le_rfl hhi hparts) hs)

/-! ## The walk through a tree -/

/-- Nodes at marks of the line, from one column on and in front of another one, whose columns never decrease, and whose
parts stand one behind the other. -/
structure Ordered (src : Source) (lo hi : Nat) (os : List Outline) : Prop where
  marks : ∀ o ∈ os, ∃ t ∈ src.marks, o.pos = src.at t
  bounds : ∀ o ∈ os, lo ≤ o.pos.column ∧ o.pos.column < hi
  order : os.Pairwise fun o u => o.pos.column ≤ u.pos.column
  parts : ∀ o ∈ os, o.parts.Pairwise fun u v => u.pos.column < v.pos.column

theorem Ordered.append (h : Ordered src lo mid os) (h' : Ordered src mid hi os') (hlo : lo ≤ mid) (hhi : mid ≤ hi) :
    Ordered src lo hi (os ++ os') where
  marks := List.forall_mem_append.mpr ⟨h.marks, h'.marks⟩
  bounds := by
    refine List.forall_mem_append.mpr ⟨fun o ho => ?_, fun o ho => ?_⟩
    · exact ⟨(h.bounds o ho).1, lt_of_lt_of_le (h.bounds o ho).2 hhi⟩
    · exact ⟨hlo.trans (h'.bounds o ho).1, (h'.bounds o ho).2⟩
  order := by
    refine List.pairwise_append.mpr ⟨h.order, h'.order, fun o ho u hu => ?_⟩
    exact (h.bounds o ho).2.le.trans (h'.bounds u hu).1
  parts := List.forall_mem_append.mpr ⟨h.parts, h'.parts⟩

theorem Row.le_pos (h : Row src lo hi os) : ∀ o ∈ os, lo ≤ o.pos.column := by
  induction os generalizing lo with
  | nil => nofun
  | cons o os ih =>
    cases h with
    | cons h hs => exact List.forall_mem_cons.mpr ⟨h.le_pos, fun u hu => h.lt.le.trans (ih hs u hu)⟩

theorem Row.strict (h : Row src lo hi os) : os.Pairwise fun o u => o.pos.column < u.pos.column := by
  induction os generalizing lo with
  | nil => exact .nil
  | cons o os ih =>
    cases h with
    | cons h hs => exact .cons (fun u hu => lt_of_lt_of_le h.pos_lt (hs.le_pos u hu)) (ih hs)

mutual

theorem Within.ordered {lo hi : Nat} : ∀ {o : Outline}, Within src lo hi o → Ordered src lo hi o.nodes
  | .node _ parts, .node (t := t) ht hlo hhi hparts => by
    have hrest := hparts.ordered
    rw [nodes]
    constructor
    · exact List.forall_mem_cons.mpr ⟨⟨t, ht, rfl⟩, hrest.marks⟩
    · refine List.forall_mem_cons.mpr ⟨⟨hlo, hhi⟩, fun o ho => ?_⟩
      exact ⟨hlo.trans (hrest.bounds o ho).1, (hrest.bounds o ho).2⟩
    · exact .cons (fun o ho => (hrest.bounds o ho).1) hrest.order
    · exact List.forall_mem_cons.mpr ⟨hparts.strict, hrest.parts⟩

theorem Row.ordered {lo hi : Nat} : ∀ {os : List Outline}, Row src lo hi os → Ordered src lo hi (nodesAll os)
  | [], _ => by
    rw [nodesAll]
    exact ⟨nofun, nofun, .nil, nofun⟩
  | _ :: _, .cons h hs => by
    rw [nodesAll]
    exact h.ordered.append hs.ordered h.lt.le hs.le

end

end Outline

end JossLang
