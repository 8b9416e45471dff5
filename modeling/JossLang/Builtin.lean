import JossLang.Double.Elementary
import JossLang.Double.Sum
import JossLang.Fault
import JossLang.Value

/-!
# Built-in functions

Functions that every session knows: parts of a number, elementary functions,
and reductions of any number of arguments, which give the identity of their
operation when there are none.
-/

namespace JossLang

structure Arity where
  least : Int
  most : Option Int
deriving DecidableEq, Repr

namespace Arity

def exactly (n : Nat) : Arity := ⟨n, some n⟩

def anyNumber : Arity := ⟨0, none⟩

def fault? (a : Arity) (function : String) (supplied : Nat) : Option Cause :=
  if (supplied : Int) < a.least then some (.tooFewArguments function a.least)
  else match a.most with
    | some most => if (supplied : Int) > most then some (.tooManyArguments function most) else none
    | none => none

def spelling (a : Arity) : String :=
  if a.most = some a.least then spellInt a.least
  else spellInt a.least ++ ".." ++ (match a.most with | some m => spellInt m | none => "")

end Arity

/-! ## Digits of a number -/

namespace Double

def sign (x : Float) : Float := if x.isNaN then x else if x > 0 then 1 else if x < 0 then -1 else 0

def digitPart (x : Float) : Float :=
  if x == 0 || !x.isFinite then x
  else
    let ds := (shortestDigits x).digits
    nearestDecimal (isNegative x) (digitsValue ds) (1 - ds.length)

def exponentPart (x : Float) : Float :=
  if x == 0 || !x.isFinite then 0 else ofInt ((shortestDigits x).point - 1)

end Double

/-! ## The functions -/

/-- Elementary functions as the host computes them. -/
structure Elementary where
  sin : Float → Float
  cos : Float → Float
  log : Float → Float
  exp : Float → Float
  arctan : Float → Float

def Elementary.nearest : Elementary := ⟨Double.sin, Double.cos, Double.log, Double.exp, Double.arctan⟩

inductive Builtin where
  | sgn | ip | fp | dp | xp
  | sqrt | sin | cos | log | exp | arg
  | sum | prod | min | max | conj | disj
  | tv
deriving DecidableEq, Repr

namespace Builtin

def name : Builtin → String
  | sgn => "sgn"
  | ip => "ip"
  | fp => "fp"
  | dp => "dp"
  | xp => "xp"
  | sqrt => "sqrt"
  | sin => "sin"
  | cos => "cos"
  | log => "log"
  | exp => "exp"
  | arg => "arg"
  | sum => "sum"
  | prod => "prod"
  | min => "min"
  | max => "max"
  | conj => "conj"
  | disj => "disj"
  | tv => "tv"

def all : List Builtin :=
  [sgn, ip, fp, dp, xp, sqrt, sin, cos, log, exp, arg, sum, prod, min, max, conj, disj, tv]

def arity : Builtin → Arity
  | sgn | ip | fp | dp | xp | sqrt | sin | cos | log | exp | tv => .exactly 1
  | arg => .exactly 2
  | sum | prod | min | max | conj | disj => .anyNumber

def unary (f : Float → Float) (args : List Value) : Value :=
  .number (f ((args.head?.map Value.toNumber).getD 0))

/-- The truth value of a number as a truth value, and of a truth value as a number. -/
def exchangeTruth : Value → Value
  | .truth b => .number (Value.truth b).toNumber
  | v => .truth v.toTruth

def apply (host : Elementary) : Builtin → List Value → Value
  | sgn, args => unary Double.sign args
  | ip, args => unary Double.truncate args
  | fp, args => unary (fun x => x - Double.truncate x) args
  | dp, args => unary Double.digitPart args
  | xp, args => unary Double.exponentPart args
  | sqrt, args => unary Float.sqrt args
  | sin, args => unary host.sin args
  | cos, args => unary host.cos args
  | log, args => unary host.log args
  | exp, args => unary host.exp args
  | arg, args =>
    match args with
    | x :: y :: _ => .number (host.arctan (y.toNumber / x.toNumber))
    | _ => .number Double.notANumber
  | sum, args => .number (Double.sum (args.map Value.toNumber))
  | prod, args => .number (Double.product (args.map Value.toNumber))
  | min, args => .number (Double.least (args.map Value.toNumber))
  | max, args => .number (Double.greatest (args.map Value.toNumber))
  | conj, args => .truth (args.all Value.toTruth)
  | disj, args => .truth (args.any Value.toTruth)
  | tv, args => ((args.head?.map exchangeTruth).getD (.truth false))

end Builtin

end JossLang
