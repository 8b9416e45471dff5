import JossLang.Command
import JossLang.Double.Written

/-!
# Values

A value is a number, a truth value, or a function. A name for an array is a
function too: called, it reads an element.

Results that are not numbers are never equal, but as indices of an array each
finds what was set at it. So they have marks, by which they are told apart.
-/

namespace JossLang

structure UserFunction where
  name : String
  params : List String
  body : Expr

/-- Something that can be called: a built-in function, known by its name; a defined one, or an
array, known by the number it got when it was made. -/
inductive Callable where
  | builtin (name : String)
  | user (serial : Nat) (function : UserFunction)
  | array (serial : Nat) (name : String)

/-- The mark tells one result that is not a number from others; numbers have mark zero. -/
inductive Scalar where
  | number (x : Float) (mark : Nat)
  | truth (b : Bool)
deriving DecidableEq

inductive Value where
  | scalar (s : Scalar)
  | function (f : Callable)

namespace Callable

def name : Callable → String
  | builtin n => n
  | user _ f => f.name
  | array _ n => n

def same : Callable → Callable → Bool
  | builtin a, builtin b => a == b
  | user i _, user j _ => i == j
  | array i _, array j _ => i == j
  | _, _ => false

end Callable

namespace Value

@[match_pattern] abbrev number (x : Float) (mark : Nat := 0) : Value := .scalar (.number x mark)

@[match_pattern] abbrev truth (b : Bool) : Value := .scalar (.truth b)

def toNumber : Value → Float
  | number x _ => x
  | truth b => if b then 1 else 0
  | function _ => Double.notANumber

def mark : Value → Nat
  | number _ m => m
  | _ => 0

def toTruth : Value → Bool
  | number x _ => x != 0 && !x.isNaN
  | truth b => b
  | function _ => true

def equal : Value → Value → Bool
  | number x _, number y _ => x == y
  | truth a, truth b => a == b
  | function f, function g => f.same g
  | _, _ => false

def written : Value → String
  | number x _ => Double.written x
  | truth b => if b then "true" else "false"
  | function f => "<function " ++ f.name ++ ">"

end Value

/-! ## Indices -/

structure Index where
  value : Float
  mark : Nat := 0

/-- Indices are the same if their numbers are equal, or if neither is a number and the marks are
equal. -/
def Index.same (a b : Index) : Bool :=
  a.value == b.value || (a.value.isNaN && b.value.isNaN && a.mark == b.mark)

instance : BEq Index := ⟨Index.same⟩

def Value.toIndex (v : Value) : Index := ⟨v.toNumber, v.mark⟩

/-! ## Operators -/

namespace Value

def both (a b : Value) : Value := .truth (a.toTruth && b.toTruth)

def arithmetic (f : Float → Float → Float) (a b : Value) : Value := .number (f a.toNumber b.toNumber)

def comparison (f : Float → Float → Bool) (a b : Value) : Value := .truth (f a.toNumber b.toNumber)

end Value

/-- What the operators do, by their spellings. Both `or` and `and` hold when both sides do. Equality compares values
of one type, and all other operators compare and combine numbers. -/
def operations : List (String × (Value → Value → Value)) := [
  ("or", .both),
  ("and", .both),
  ("=", fun a b => .truth (a.equal b)),
  ("!=", fun a b => .truth (!a.equal b)),
  ("<", .comparison fun x y => x < y),
  (">", .comparison fun x y => x > y),
  ("<=", .comparison fun x y => x ≤ y),
  (">=", .comparison fun x y => x ≥ y),
  ("+", .arithmetic (· + ·)),
  ("-", .arithmetic (· - ·)),
  ("/", .arithmetic (· / ·)),
  ("*", .arithmetic (· * ·))]

/-- No operator is missing. -/
theorem Operator.operation (o : Operator) : ∃ f, operations.lookup o.spelling = some f ∧ (o.spelling, f) ∈ operations := by
  cases o <;> exact ⟨_, rfl, by simp [operations, Operator.spelling]⟩

end JossLang
