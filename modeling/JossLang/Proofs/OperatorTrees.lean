import JossLang.Lexeme
import Mathlib.Data.List.Basic

/-!
# Trees of operators

A chain of atoms with an operator between any two can be bracketed in many ways. In an ordered tree a tighter operator
stands below a looser one, and operators of one precedence group to the left. No chain has two such trees:
`OperatorTree.Groups.unique`.
-/

namespace JossLang

inductive OperatorTree (α : Type) where
  | atom (a : α)
  | node (o : Operator) (lhs rhs : OperatorTree α)

namespace OperatorTree

variable {α : Type}

def first : OperatorTree α → α
  | atom a => a
  | node _ lhs _ => lhs.first

def rest : OperatorTree α → List (Operator × α)
  | atom _ => []
  | node o lhs rhs => lhs.rest ++ (o, rhs.first) :: rhs.rest

def atoms (t : OperatorTree α) : List α := t.first :: t.rest.map Prod.snd

def top? : OperatorTree α → Option Nat
  | atom _ => none
  | node o _ _ => some o.precedence

/-- What stands on the left of an operator binds at least as tight, and what stands on its right tighter. -/
def Ordered : OperatorTree α → Prop
  | atom _ => True
  | node o lhs rhs => (∀ q ∈ lhs.top?, o.precedence ≤ q) ∧ (∀ q ∈ rhs.top?, o.precedence < q) ∧ lhs.Ordered ∧ rhs.Ordered

@[simp] theorem atoms_atom (a : α) : (atom a).atoms = [a] := rfl

@[simp] theorem atoms_node (o : Operator) (lhs rhs : OperatorTree α) :
    (node o lhs rhs).atoms = lhs.atoms ++ rhs.atoms := by
  simp [atoms, first, rest]

/-! ## Only one tree -/

theorem Ordered.le_precedence {t : OperatorTree α} (h : t.Ordered) {least : Nat} (ht : ∀ q ∈ t.top?, least ≤ q) :
    ∀ x ∈ t.rest, least ≤ x.1.precedence := by
  induction t generalizing least with
  | atom => nofun
  | node o lhs rhs ihl ihr =>
    obtain ⟨hl, hr, hol, hor⟩ := h
    have htop : least ≤ o.precedence := ht _ rfl
    intro x hx
    rcases List.mem_append.mp hx with hx | hx
    · exact Nat.le_trans htop (ihl hol hl x hx)
    · cases hx with
      | head => exact htop
      | tail _ hx => exact Nat.le_trans htop (Nat.le_of_lt (ihr hor hr x hx))

/-- The loosest operators of a chain have one place where an ordered tree can part: before the last of them. -/
theorem Ordered.top_unique {o o' : Operator} {lhs rhs lhs' rhs' : OperatorTree α} (h : (node o lhs rhs).Ordered)
    (h' : (node o' lhs' rhs').Ordered) {ms : List (Operator × α)} (hl : lhs'.rest = lhs.rest ++ ms)
    (hr : (o, rhs.first) :: rhs.rest = ms ++ (o', rhs'.first) :: rhs'.rest) : ms = [] := by
  cases ms with
  | nil => rfl
  | cons m ms =>
    rw [List.cons_append, List.cons_eq_cons] at hr
    obtain ⟨rfl, htail⟩ := hr
    obtain ⟨-, htight, -, hor⟩ := h
    obtain ⟨hloose, -, hol, -⟩ := h'
    have hle : o'.precedence ≤ o.precedence :=
      hol.le_precedence hloose (o, rhs.first) (hl ▸ List.mem_append_right _ List.mem_cons_self)
    have hlt : o.precedence < o'.precedence :=
      hor.le_precedence htight (o', rhs'.first) (htail ▸ List.mem_append_right _ List.mem_cons_self)
    exact absurd hle (Nat.not_le_of_lt hlt)

theorem Ordered.unique {t t' : OperatorTree α} (h : t.Ordered) (h' : t'.Ordered) (hfirst : t.first = t'.first)
    (hrest : t.rest = t'.rest) : t = t' := by
  induction t generalizing t' with
  | atom a =>
    cases t' with
    | atom => exact congrArg atom hfirst
    | node => simp [rest] at hrest
  | node o lhs rhs ihl ihr =>
    cases t' with
    | atom => simp [rest] at hrest
    | node o' lhs' rhs' =>
      have hparts : lhs.rest = lhs'.rest ∧ (o, rhs.first) :: rhs.rest = (o', rhs'.first) :: rhs'.rest := by
        rcases List.append_eq_append_iff.mp hrest with ⟨ms, hl, hr⟩ | ⟨ms, hl, hr⟩
        · obtain rfl := h.top_unique h' hl hr
          exact ⟨by simpa using hl.symm, hr⟩
        · obtain rfl := h'.top_unique h hl hr
          exact ⟨by simpa using hl, hr.symm⟩
      obtain ⟨hl, hr⟩ := hparts
      obtain ⟨⟨rfl, hf⟩, htail⟩ := (List.cons_eq_cons.mp hr).imp_left Prod.mk.inj
      obtain ⟨-, -, hol, hor⟩ := h
      obtain ⟨-, -, hol', hor'⟩ := h'
      rw [ihl hol hol' hfirst hl, ihr hor hor' hf htail]

structure Groups (t : OperatorTree α) (a : α) (as : List (Operator × α)) : Prop where
  first : t.first = a
  rest : t.rest = as
  ordered : t.Ordered

theorem Groups.unique {t t' : OperatorTree α} {a : α} {as : List (Operator × α)} (h : t.Groups a as)
    (h' : t'.Groups a as) : t = t' :=
  h.ordered.unique h'.ordered (h.first.trans h'.first.symm) (h.rest.trans h'.rest.symm)

end OperatorTree

end JossLang
