import JossLang.Rounding

/-!
# Parts of a double

A finite double is a sign and a magnitude `m * 2 ^ e`. Its 64 bits hold the
sign, eleven bits of exponent and 52 bits of the mantissa; a magnitude is read
from these fields and written back to them.
-/

namespace JossLang.Double

structure Magnitude where
  mantissa : Nat
  exponent : Int
deriving DecidableEq, Repr

def isNegative (x : Float) : Bool := x.toBits.toNat / Nat.pow 2 63 == 1

def exponentField (x : Float) : Nat := x.toBits.toNat / Nat.pow 2 52 % Nat.pow 2 11

def fractionField (x : Float) : Nat := x.toBits.toNat % Nat.pow 2 52

def magnitude (x : Float) : Magnitude :=
  if exponentField x = 0 then ⟨fractionField x, -1074⟩
  else ⟨fractionField x + Nat.pow 2 52, exponentField x - 1075⟩

def infinityBits : Nat := 2047 * Nat.pow 2 52

/-- The double with a sign and the lower 63 bits; bits past those of infinity give infinity. -/
def ofFields (negative : Bool) (bits : Nat) : Float :=
  let body := min bits infinityBits
  Float.ofBits (UInt64.ofNat (if negative then Nat.pow 2 63 + body else body))

def infinity (negative : Bool) : Float := ofFields negative infinityBits

def zero (negative : Bool) : Float := ofFields negative 0

def notANumber : Float := Float.ofBits 0x7ff8000000000000

def placeExponent (num den : Nat) : Int :=
  let guess : Int := (Nat.log2 num : Int) - Nat.log2 den - 52
  let small :=
    if guess ≥ 0 then num < den * Nat.pow 2 (52 + guess.toNat)
    else num * Nat.pow 2 (-guess).toNat < den * Nat.pow 2 52
  max (if small then guess - 1 else guess) (-1074)

/-- The double nearest to the fraction `num / den`, ties going to the even mantissa. -/
def nearest (negative : Bool) (num den : Nat) : Float :=
  if num = 0 then zero negative
  else
    let e := placeExponent num den
    let q := if e ≥ 0 then roundHalfEven num (den * Nat.pow 2 e.toNat)
      else roundHalfEven (num * Nat.pow 2 (-e).toNat) den
    ofFields negative ((e + 1074).toNat * Nat.pow 2 52 + q)

def nearestBinary (negative : Bool) (m : Nat) (e : Int) : Float :=
  if e ≥ 0 then nearest negative (m * Nat.pow 2 e.toNat) 1 else nearest negative m (Nat.pow 2 (-e).toNat)

def nearestDecimal (negative : Bool) (c : Nat) (p : Int) : Float :=
  if p ≥ 0 then nearest negative (c * Nat.pow 10 p.toNat) 1 else nearest negative c (Nat.pow 10 (-p).toNat)

def ofNat (n : Nat) : Float := nearest false n 1

def ofInt (n : Int) : Float := nearest (n < 0) n.natAbs 1

/-! ## Whole parts -/

def Magnitude.whole (a : Magnitude) : Nat :=
  if a.exponent ≥ 0 then a.mantissa * Nat.pow 2 a.exponent.toNat
  else a.mantissa / Nat.pow 2 (-a.exponent).toNat

/-- The whole part of a double, toward zero; it keeps the sign, also of zero. -/
def truncate (x : Float) : Float :=
  if x.isFinite ∧ (magnitude x).exponent < 0 then nearest (isNegative x) (magnitude x).whole 1 else x

def floor (x : Float) : Int :=
  let a := magnitude x
  if isNegative x then
    let w := a.whole
    if a.exponent < 0 ∧ w * Nat.pow 2 (-a.exponent).toNat < a.mantissa then -(w + 1 : Int) else -(w : Int)
  else a.whole

end JossLang.Double
