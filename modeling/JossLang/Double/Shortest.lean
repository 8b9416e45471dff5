import JossLang.Double.Parts
import JossLang.Text.Digit

/-!
# Shortest decimals

The fewest decimal digits that read back as a given double, and of the
decimals with that many digits the one nearest to it. A decimal reads back as
the double when it lies in the interval of numbers that round to it; the ends
belong to the interval when the mantissa is even.
-/

namespace JossLang.Double

structure Decimal where
  coefficient : Nat
  power : Int
deriving DecidableEq, Repr

def compareDecimal (c : Nat) (p : Int) (b : Nat) (e : Int) : Ordering :=
  compare (c * Nat.pow 10 p.toNat * Nat.pow 2 (-e).toNat) (b * Nat.pow 2 e.toNat * Nat.pow 10 (-p).toNat)

/-- Whether `c * 10 ^ p` rounds to the magnitude `a`. Below a power of two the neighbour is half as
far away. -/
def readsBack (a : Magnitude) (c : Nat) (p : Int) : Bool :=
  let below := if a.mantissa = Nat.pow 2 52 ∧ a.exponent > -1074 then 1 else 2
  let low := compareDecimal c p (4 * a.mantissa - below) (a.exponent - 2)
  let high := compareDecimal c p (4 * a.mantissa + 2) (a.exponent - 2)
  let even := a.mantissa % 2 = 0
  (low == .gt || (even && low == .eq)) && (high == .lt || (even && high == .eq))

def tenPowerBelow (a : Magnitude) : (steps : Nat) → Int → Int
  | 0, t => t
  | n + 1, t => if compareDecimal 1 t a.mantissa a.exponent == .gt then tenPowerBelow a n (t - 1) else t

def leadingPower (a : Magnitude) : Int :=
  tenPowerBelow a 3 ((a.exponent + Nat.log2 a.mantissa) * 30103 / 100000 + 1)

def decimalBelow (a : Magnitude) (p : Int) : Nat :=
  (a.mantissa * Nat.pow 2 a.exponent.toNat * Nat.pow 10 (-p).toNat) / (Nat.pow 10 p.toNat * Nat.pow 2 (-a.exponent).toNat)

def lowerIsNearer (a : Magnitude) (c : Nat) (p : Int) : Bool :=
  match compareDecimal (2 * c + 1) p (2 * a.mantissa) a.exponent with
  | .gt => true
  | .eq => c % 2 == 0
  | .lt => false

def decimalAt? (a : Magnitude) (p : Int) : Option Decimal :=
  let c := decimalBelow a p
  match readsBack a c p, readsBack a (c + 1) p with
  | true, true => some ⟨if lowerIsNearer a c p then c else c + 1, p⟩
  | true, false => some ⟨c, p⟩
  | false, true => some ⟨c + 1, p⟩
  | false, false => none

def shortestFrom (a : Magnitude) (lead : Int) : (tries digits : Nat) → Decimal
  | 0, _ => ⟨a.mantissa * Nat.pow 2 a.exponent.toNat * Nat.pow 5 (-a.exponent).toNat, min a.exponent 0⟩
  | n + 1, k => (decimalAt? a (lead + 1 - k)).getD (shortestFrom a lead n (k + 1))

/-- The shortest decimal of a positive magnitude; seventeen digits are always enough. -/
def shortest (a : Magnitude) : Decimal := shortestFrom a (leadingPower a) 17 1

/-! ## Digits and point -/

/-- The number `0.d₁d₂… * 10 ^ point`. -/
structure Digits where
  digits : List Char
  point : Int
deriving DecidableEq, Repr

def Decimal.normalDigits (d : Decimal) : Digits :=
  let ds := digitsOf d.coefficient
  let kept := dropTrailingZeros ds
  ⟨if kept.isEmpty then ['0'] else kept, ds.length + d.power⟩

def shortestDigits (x : Float) : Digits := (shortest (magnitude x)).normalDigits

end JossLang.Double
