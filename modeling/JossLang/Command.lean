import JossLang.Lexeme
import JossLang.StepNumber

/-!
# Commands

The tree of a line. Every node but a branch and a term of a range knows where
it stands.
-/

namespace JossLang

structure Location where
  file : String
  line : Int
  column : Nat
  statement : String
deriving DecidableEq, Repr

/-! ## Expressions -/

mutual

/-- A name with indices is an element of an array or a call, which is known only once the name is
looked up. A reduction calls a function on the values of its body over a range. -/
inductive Expr where
  | number (pos : Location) (value : Float)
  | reference (pos : Location) (name : String) (indices : List Expr)
  | binary (pos : Location) (op : Operator) (lhs rhs : Expr)
  | conditional (pos : Location) (branches : List Branch) (otherwise : Expr)
  | reduction (pos : Location) (function loopVar : String) (range : Range) (body : Expr)

inductive Branch where
  | mk (condition result : Expr)

/-- Values one after the other: single ones, and progressions up to but not including `stop`. -/
inductive Range where
  | mk (pos : Location) (terms : List Term)

inductive Term where
  | single (value : Expr)
  | stepped (start step stop : Expr)

end

namespace Expr

def pos : Expr → Location
  | number p _ => p
  | reference p _ _ => p
  | binary p _ _ _ => p
  | conditional p _ _ => p
  | reduction p _ _ _ _ => p

end Expr

instance : Inhabited Expr := ⟨.number ⟨"", 0, 0, ""⟩ 0⟩

def Range.pos : Range → Location
  | .mk p _ => p

def Range.terms : Range → List Term
  | .mk _ ts => ts

/-! ## Verbs -/

inductive Item where
  | quoted (pos : Location) (text : String)
  | numeric (pos : Location) (value : Expr)

structure Target where
  pos : Location
  name : String
  indices : List Expr

inductive Goal where
  | part (part : String)
  | step (number : StepNumber)
deriving DecidableEq, Repr

inductive Loop where
  | once
  | times (count : Expr)
  | each (loopVar : String) (range : Range)

inductive Verb where
  | blank (pos : Location)
  | type (pos : Location) (items : List Item)
  | set (pos : Location) (target : Target) (value : Expr)
  | define (pos : Location) (name : String) (params : List String) (body : Expr)
  | perform (pos : Location) (goal : Goal) (loop : Loop)

namespace Verb

def pos : Verb → Location
  | blank p => p
  | type p _ => p
  | set p _ _ => p
  | define p _ _ _ => p
  | perform p _ _ => p

def label : Verb → String
  | blank _ => "NoOp"
  | type _ _ => "Type"
  | set _ _ _ => "Set"
  | define _ _ _ _ => "Let"
  | perform _ _ _ => "Do"

end Verb

structure Command where
  pos : Location
  verb : Verb
  guard : Option Expr

inductive Line where
  | direct (command : Command)
  | stored (pos : Location) (number : StepNumber) (command : Command)

def Line.pos : Line → Location
  | direct c => c.pos
  | stored p _ _ => p

end JossLang
