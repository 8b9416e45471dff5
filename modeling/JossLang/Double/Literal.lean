import JossLang.Double.Parts
import JossLang.Text.Digit

/-!
# Number literals

A literal is digits with at most one point among them; its value is the double
nearest to the decimal it denotes.
-/

namespace JossLang.Double

def splitPoint (cs : List Char) : List Char × List Char :=
  (cs.takeWhile (· ≠ '.'), (cs.dropWhile (· ≠ '.')).drop 1)

def ofLiteral (cs : List Char) : Float :=
  let (whole, fraction) := splitPoint cs
  nearestDecimal false (digitsValue (whole ++ fraction)) (-fraction.length)

end JossLang.Double
