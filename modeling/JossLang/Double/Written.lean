import JossLang.Double.Shortest

/-!
# Numbers in writing

A number is written with its shortest digits: as a whole number up to 21
digits, with a point while the first digit is at most six places behind it,
and with an exponent otherwise. The signs of the two zeros are not shown.
-/

namespace JossLang.Double

def exponentText (e : Int) : List Char :=
  (if e ≥ 0 then '+' else '-') :: digitsOf e.natAbs

def Digits.layout (d : Digits) : List Char :=
  let k : Int := d.digits.length
  let n := d.point
  if k ≤ n ∧ n ≤ 21 then d.digits ++ List.replicate (n - k).toNat '0'
  else if 0 < n ∧ n ≤ 21 then d.digits.take n.toNat ++ '.' :: d.digits.drop n.toNat
  else if -6 < n ∧ n ≤ 0 then '0' :: '.' :: List.replicate (-n).toNat '0' ++ d.digits
  else match d.digits with
    | [] => []
    | [c] => c :: 'e' :: exponentText (n - 1)
    | c :: cs => c :: '.' :: cs ++ 'e' :: exponentText (n - 1)

def signed (negative : Bool) (cs : List Char) : List Char := if negative then '-' :: cs else cs

def written (x : Float) : String :=
  if x.isNaN then "NaN"
  else if x.isInf then (if isNegative x then "-Infinity" else "Infinity")
  else if x == 0 then "0"
  else String.ofList (signed (isNegative x) (shortestDigits x).layout)

end JossLang.Double
