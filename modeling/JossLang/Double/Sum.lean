import JossLang.Double.Parts

/-!
# Sums and extremes

The sum of doubles depends on the order of additions. Short lists are added
from left to right, longer ones in eight lanes that are then added pairwise,
and very long ones in two halves.

The extremes are taken in two lanes. This decides between zeros of both signs,
which are equal: the later one counts in each lane, and then the second lane.
-/

namespace JossLang.Double

def addAll (start : Float) (xs : List Float) : Float := xs.foldl (· + ·) start

def addFromLeft : List Float → Float
  | [] => 0
  | x :: xs => addAll x xs

def addLanes : (groups : Nat) → (lanes rest : List Float) → List Float × List Float
  | 0, lanes, rest => (lanes, rest)
  | n + 1, lanes, rest => addLanes n (lanes.zipWith (· + ·) (rest.take 8)) (rest.drop 8)

def addPairs : List Float → Float
  | [a, b, c, d, e, f, g, h] => ((a + b) + (c + d)) + ((e + f) + (g + h))
  | xs => addFromLeft xs

def addBlock (xs : List Float) : Float :=
  let (lanes, rest) := addLanes (xs.length / 8 - 1) (xs.take 8) (xs.drop 8)
  addAll (addPairs lanes) rest

def halfLength (n : Nat) : Nat := n / 2 - n / 2 % 8

def pairwise (xs : List Float) : Float :=
  if xs.length < 8 then addFromLeft xs
  else if _h : xs.length ≤ 128 then addBlock xs
  else pairwise (xs.take (halfLength xs.length)) + pairwise (xs.drop (halfLength xs.length))
termination_by xs.length
decreasing_by
  · simp only [List.length_take, halfLength]; omega
  · simp only [List.length_drop, halfLength]; omega

def sum (xs : List Float) : Float := 0 + pairwise xs

def product (xs : List Float) : Float := xs.foldl (· * ·) 1

/-- The smaller of two numbers, and the second of equal ones; what is not a number stays. -/
def smaller (a b : Float) : Float := if a < b || a.isNaN then a else b

def larger (a b : Float) : Float := if a > b || a.isNaN then a else b

/-- Goes through pairs of elements with a lane for each place in the pair, joins the lanes, and ends
with an element that is left over. -/
def inLanes (pick : Float → Float → Float) : (first second : Float) → List Float → Float
  | a, b, x :: y :: xs => inLanes pick (pick a x) (pick b y) xs
  | a, b, [x] => pick (pick a b) x
  | a, b, [] => pick a b

def least (xs : List Float) : Float := inLanes smaller (infinity false) (infinity false) xs

def greatest (xs : List Float) : Float := inLanes larger (infinity true) (infinity true) xs

/-! ## Statistics -/

def mean (xs : List Float) : Float := sum xs / ofNat xs.length

def variance (xs : List Float) : Float :=
  let m := mean xs
  sum (xs.map fun x => (x - m) * (x - m)) / ofNat xs.length

def deviation (xs : List Float) : Float := (variance xs).sqrt

def middle {α : Type} (xs : List α) : List α :=
  (xs.drop ((xs.length - 1) / 2)).take (2 - xs.length % 2)

def median (xs : List Float) : Float :=
  if xs.any Float.isNaN then notANumber else mean (middle (xs.mergeSort fun a b => decide (a ≤ b)))

end JossLang.Double
