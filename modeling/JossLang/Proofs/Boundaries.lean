import Mathlib.Data.List.Basic

/-!
# Words of boundaries

What is opened and closed leaves a word of boundaries. As with brackets, it is balanced when whatever opens is closed
by a boundary of its own, and the pairs nest. Prefixes of such words leave some open (`Unclosed`), and which pairs stand
inside which can be read off a word (`enclosers`).
-/

namespace JossLang

inductive Boundary (α : Type) where
  | opening (a : α)
  | closing (a : α)

namespace Boundary

variable {α : Type}

inductive Balanced : List (Boundary α) → Prop where
  | nil : Balanced []
  | pair {a : α} {w v : List (Boundary α)} : Balanced w → Balanced v → Balanced (.opening a :: (w ++ .closing a :: v))

inductive Unclosed : List (Boundary α) → List α → Prop where
  | balanced {w : List (Boundary α)} : Balanced w → Unclosed w []
  | opening {w v : List (Boundary α)} {as : List α} {a : α} : Unclosed w as → Balanced v →
      Unclosed (w ++ .opening a :: v) (a :: as)

def openings (w : List (Boundary α)) : List α :=
  w.filterMap fun
    | .opening a => some a
    | .closing _ => none

/-- For each opening, in order, the one directly around it. They are numbered in this order from `n` on, and `around`
are open already, the innermost first. -/
def enclosers : (n : Nat) → (around : List Nat) → List (Boundary α) → List (Option Nat)
  | _, _, [] => []
  | n, around, .opening _ :: w => around.head? :: enclosers (n + 1) (n :: around) w
  | n, around, .closing _ :: w => enclosers n around.tail w

@[simp] theorem openings_append (w v : List (Boundary α)) : openings (w ++ v) = openings w ++ openings v :=
  List.filterMap_append

@[simp] theorem openings_opening (a : α) : openings [.opening a] = [a] := rfl

@[simp] theorem openings_closing (a : α) : openings [.closing a] = [] := rfl

/-! ## Balanced words -/

theorem Balanced.append {u v : List (Boundary α)} (hu : Balanced u) (hv : Balanced v) : Balanced (u ++ v) := by
  induction hu with
  | nil => exact hv
  | pair hw _ _ ih =>
    simp only [List.cons_append, List.append_assoc]
    exact .pair hw ih

theorem Unclosed.append {w v : List (Boundary α)} {as : List α} (h : Unclosed w as) (hv : Balanced v) :
    Unclosed (w ++ v) as := by
  cases h with
  | balanced hw => exact .balanced (hw.append hv)
  | opening hw hu =>
    simp only [List.cons_append, List.append_assoc]
    exact .opening hw (hu.append hv)

theorem Unclosed.opens {w : List (Boundary α)} {as : List α} (h : Unclosed w as) (a : α) :
    Unclosed (w ++ [.opening a]) (a :: as) := .opening h .nil

theorem Unclosed.closes {w : List (Boundary α)} {as : List α} {a : α} (h : Unclosed w (a :: as)) :
    Unclosed (w ++ [.closing a]) as := by
  cases h with
  | opening hw hv =>
    have hpair : Balanced (.opening a :: (_ ++ .closing a :: [])) := .pair hv .nil
    simpa using hw.append hpair

theorem Unclosed.balanced_of_nil {w : List (Boundary α)} (h : Unclosed w []) : Balanced w := by
  cases h with
  | balanced hw => exact hw

theorem Unclosed.completed {as : List α} : ∀ {w : List (Boundary α)}, Unclosed w as → Balanced (w ++ as.map .closing) := by
  induction as with
  | nil =>
    intro w h
    simpa using h.balanced_of_nil
  | cons a as ih =>
    intro w h
    have hclosed := ih h.closes
    simpa using hclosed

/-! ## Pairs inside pairs -/

def Nests (base : Nat) (w : List (Boundary α)) (inside : List (Option Nat)) (around : List Nat) : Prop :=
  ∀ v, enclosers base [] (w ++ v) = inside ++ enclosers (base + inside.length) around v

theorem nests_nil (base : Nat) : Nests base ([] : List (Boundary α)) [] [] := fun _ => rfl

section
variable {base n : Nat} {w : List (Boundary α)} {inside : List (Option Nat)} {around : List Nat}

theorem Nests.enclosers_eq (h : Nests base w inside around) : enclosers base [] w = inside := by
  simpa [enclosers] using h []

theorem Nests.opens (h : Nests base w inside around) (a : α) :
    Nests base (w ++ [.opening a]) (inside ++ [around.head?]) ((base + inside.length) :: around) := by
  intro v
  have hv := h (.opening a :: v)
  simpa [enclosers, Nat.add_assoc] using hv

theorem Nests.closes (h : Nests base w inside (n :: around)) (a : α) : Nests base (w ++ [.closing a]) inside around := by
  intro v
  have hv := h (.closing a :: v)
  simpa [enclosers] using hv

end

/-- The pair around two others, which stand side by side. -/
example : enclosers 4 [] [opening 'a', opening 'b', closing 'b', opening 'c', closing 'c', closing 'a'] =
    [none, some 4, some 4] := by decide

end Boundary

end JossLang
