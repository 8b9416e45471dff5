import JossLang.Rounding
import JossLang.Text.Blank
import JossLang.Text.Digit

/-!
# Step numbers

A step is numbered by a decimal with a fraction: its whole part names the part
of the program, and the digits behind the point order the steps in it. A
number is kept to 28 significant digits, a half going to the even neighbour,
and without zeros at its end, so `1.1` and `1.10` are one step.
-/

namespace JossLang

/-- The name of a stored step: the digits before the point and those behind it. -/
structure StepNumber where
  part : String
  step : String
deriving DecidableEq, Repr

def StepNumber.spelling (n : StepNumber) : String := n.part ++ "." ++ n.step

inductive NumberFault where
  | stepWithoutPoint
  | malformedStep
  | stepWithoutFraction
  | partWithPoint
  | malformedPart
deriving DecidableEq, Repr

/-! ## Decimals -/

structure SignedDecimal where
  negative : Bool
  coefficient : Nat
  power : Int
deriving DecidableEq, Repr

def splitSign : List Char → Bool × List Char
  | '-' :: cs => (true, cs)
  | '+' :: cs => (false, cs)
  | cs => (false, cs)

def exponentOf? : List Char → Option Int
  | [] => some 0
  | c :: cs =>
    let (negative, ds) := splitSign cs
    if (c = 'e' ∨ c = 'E') ∧ ds ≠ [] ∧ ds.all isDigit then
      some (if negative then -(digitsValue ds : Int) else digitsValue ds)
    else none

def isPossiblePower (coefficientDigits : Nat) (power : Int) : Bool :=
  power + coefficientDigits ≤ 1000000000000000000 ∧ -1999999999999999997 ≤ power

/-- Reads a decimal: a sign, digits with at most one point, an exponent. Blanks around it and
underscores in it do not count. -/
def SignedDecimal.ofText? (text : List Char) : Option SignedDecimal :=
  let (negative, body) := splitSign ((trim text).filter (· ≠ '_'))
  let whole := body.takeWhile isDigit
  let behind := body.dropWhile isDigit
  let (fraction, rest) := match behind with
    | '.' :: cs => (cs.takeWhile isDigit, cs.dropWhile isDigit)
    | cs => ([], cs)
  if whole ++ fraction = [] then none
  else match exponentOf? rest with
    | none => none
    | some e =>
      let c := digitsValue (whole ++ fraction)
      let p := e - fraction.length
      if isPossiblePower (digitsOf c).length p then some ⟨negative, c, p⟩ else none

def significantDigits : Nat := 28

def lastPlace : Int := -1000026

def dropDigits (c k : Nat) : Nat :=
  if (digitsOf c).length < k then 0 else roundHalfEven c (Nat.pow 10 k)

def SignedDecimal.rounded (d : SignedDecimal) : SignedDecimal :=
  let excess : Int := (digitsOf d.coefficient).length - significantDigits
  let k := (max excess (lastPlace - d.power)).toNat
  if k = 0 then d else ⟨d.negative, dropDigits d.coefficient k, d.power + k⟩

def SignedDecimal.positional (d : SignedDecimal) : List Char × List Char :=
  let ds := digitsOf d.coefficient
  let kept := dropTrailingZeros ds
  let behind := -(d.power + (ds.length - kept.length : Nat))
  if kept = [] then (['0'], [])
  else if behind ≤ 0 then (kept ++ List.replicate (-behind).toNat '0', [])
  else
    let n := behind.toNat
    if kept.length ≤ n then (['0'], List.replicate (n - kept.length) '0' ++ kept)
    else (kept.take (kept.length - n), kept.drop (kept.length - n))

/-! ## Parts -/

def isGroupedDigits : List Char → Bool
  | [] => false
  | [c] => isDigit c
  | c :: '_' :: cs => isDigit c && isGroupedDigits cs
  | c :: cs => isDigit c && isGroupedDigits cs

/-- The blanks allowed around a part number; the separators U+001C to U+001F are not. -/
def isNumberBlank (c : Char) : Bool := isBlank c && !(28 ≤ c.toNat && c.toNat < 32)

def trimNumber (cs : List Char) : List Char :=
  ((cs.dropWhile isNumberBlank).reverse.dropWhile isNumberBlank).reverse

def maximalDigits : Nat := 4300

def wholeNumber? (text : List Char) : Option Int :=
  let (negative, body) := splitSign (trimNumber text)
  let ds := body.filter (· ≠ '_')
  if isGroupedDigits body ∧ ds.length ≤ maximalDigits then
    some (if negative then -(digitsValue ds : Int) else digitsValue ds)
  else none

def spellInt (n : Int) : String :=
  String.ofList (if n < 0 then '-' :: digitsOf n.natAbs else digitsOf n.natAbs)

def partOf (literal : String) : Except NumberFault String :=
  if literal.toList.contains '.' then .error .partWithPoint
  else match wholeNumber? literal.toList with
    | some n => .ok (spellInt n)
    | none => .error .malformedPart

def StepNumber.ofLiteral (literal : String) : Except NumberFault StepNumber :=
  if !literal.toList.contains '.' then .error .stepWithoutPoint
  else match SignedDecimal.ofText? literal.toList with
    | none => .error .malformedStep
    | some d =>
      let (whole, fraction) := d.rounded.positional
      if fraction = [] then .error .stepWithoutFraction
      else
        let n : Int := digitsValue whole
        .ok ⟨spellInt (if d.negative then -n else n), String.ofList fraction⟩

/-! ## Order -/

def fractionLt : List Char → List Char → Bool
  | _, [] => false
  | [], d :: ds => digitValue d != 0 || fractionLt [] ds
  | c :: cs, d :: ds =>
    if digitValue c = digitValue d then fractionLt cs ds else digitValue c < digitValue d

/-- Whether the magnitude of a decimal is less than that of another one: its first digit has a
lower place, or the same place and it starts a smaller fraction. -/
def SignedDecimal.magnitudeLt (a b : SignedDecimal) : Bool :=
  let as := digitsOf a.coefficient
  let bs := digitsOf b.coefficient
  let placeA := a.power + as.length
  let placeB := b.power + bs.length
  b.coefficient != 0 &&
    (a.coefficient == 0 || placeA < placeB || (placeA == placeB && fractionLt as bs))

def orderOf (step : String) : SignedDecimal :=
  (SignedDecimal.ofText? ('0' :: '.' :: step.toList)).getD ⟨false, 0, 0⟩

def precedes (a b : String) : Bool := (orderOf a).magnitudeLt (orderOf b)

end JossLang
