import JossLang.Double.Parts

/-!
# Elementary functions

Exponential, logarithm, sine, cosine and arc tangent, each rounded to the
nearest double. A value is first computed as an integer multiple of `2 ^ -p`,
with an error far below `2 ^ guard` of these units; when the two ends of that
interval round to the same double, it is the answer, and otherwise the
precision is doubled.
-/

namespace JossLang.Double

def guard : Nat := 24

structure Approximation where
  value : Int
  unit : Int

def roundAt (v unit : Int) : Float := nearestBinary (v < 0) v.natAbs (-unit)

/-- The double that every number in the error interval rounds to, if there is one. -/
def Approximation.settled? (a : Approximation) : Option Float :=
  let low := roundAt (a.value - Nat.pow 2 guard) a.unit
  let high := roundAt (a.value + Nat.pow 2 guard) a.unit
  if low.toBits = high.toBits then some low else none

def settle (f : Nat → Approximation) : (tries : Nat) → (precision : Nat) → Float
  | 0, p => roundAt (f p).value (f p).unit
  | n + 1, p => ((f p).settled?).getD (settle f n (2 * p))

def settled (f : Nat → Approximation) : Float := settle f 6 192

/-! ## Fixed-point series -/

def scaleDown (v : Int) (p : Nat) : Int := v >>> p

def Magnitude.fixed (a : Magnitude) (p : Nat) : Int :=
  let s := a.exponent + p
  if s ≥ 0 then a.mantissa * Nat.pow 2 s.toNat else a.mantissa / Nat.pow 2 (-s).toNat

/-- `1/k + s/(3k³) + 1/(5k⁵) + …` with `s` the sign of every second term. -/
def inverseSeries (sign : Int) (k : Int) : (terms : Nat) → (power : Int) → (odd : Int) → Int
  | 0, _, _ => 0
  | n + 1, power, odd =>
    if power = 0 then 0
    else power / odd + sign * inverseSeries sign k n (power / (k * k)) (odd + 2)

def logTwo (p : Nat) : Int := 2 * inverseSeries 1 3 p (Nat.pow 2 p / 3) 1

/-- Machin's formula: a quarter of π is four arc tangents of 1/5 less one of 1/239. -/
def piFixed (p : Nat) : Int :=
  16 * inverseSeries (-1) 5 p (Nat.pow 2 p / 5) 1 - 4 * inverseSeries (-1) 239 p (Nat.pow 2 p / 239) 1

/-- `z + s z³/3 + z⁵/5 + …`, where `square` is `z²`. -/
def oddSeries (p : Nat) (sign square : Int) : (terms : Nat) → (power : Int) → (odd : Int) → Int
  | 0, _, _ => 0
  | n + 1, power, odd =>
    if power = 0 ∨ power = -1 then 0
    else power / odd + sign * oddSeries p sign square n (scaleDown (power * square) p) (odd + 2)

/-- `t + t x/(i+1) + t x²/((i+1)(i+2)) + …`. -/
def exponentialSeries (p : Nat) (x : Int) : (terms : Nat) → (term : Int) → (i : Int) → Int
  | 0, _, _ => 0
  | n + 1, term, i =>
    if term = 0 ∨ term = -1 then 0
    else term + exponentialSeries p x n (scaleDown (term * x) p / (i + 1)) (i + 1)

/-- `t - t x²/((i+1)(i+2)) + …`, where `square` is `x²`. -/
def alternatingSeries (p : Nat) (square : Int) : (terms : Nat) → (term : Int) → (i : Int) → Int
  | 0, _, _ => 0
  | n + 1, term, i =>
    if term = 0 ∨ term = -1 then 0
    else term - alternatingSeries p square n (scaleDown (term * square) p / ((i + 1) * (i + 2))) (i + 2)

/-! ## Functions on finite doubles -/

def signedFixed (x : Float) (p : Nat) : Int :=
  let v := (magnitude x).fixed p
  if isNegative x then -v else v

def expApproximation (x : Float) (p : Nat) : Approximation :=
  let two := logTwo (p + 16)
  let v := signedFixed x (p + 16)
  let k := v / two
  ⟨exponentialSeries p (scaleDown (v - k * two) 16) p (Nat.pow 2 p) 0, p - k⟩

/-- `log (m 2 ^ e)` as `s log 2 + 2 artanh ((f - 1) / (f + 1))`, where `f = m 2 ^ e / 2 ^ s` is near
one. -/
def logApproximation (x : Float) (p : Nat) : Approximation :=
  let a := magnitude x
  let l := Nat.log2 a.mantissa
  let up : Nat := if a.mantissa * a.mantissa > Nat.pow 2 (2 * l + 1) then 1 else 0
  let num : Int := a.mantissa - Nat.pow 2 (l + up)
  let den : Int := a.mantissa + Nat.pow 2 (l + up)
  let z := num * Nat.pow 2 p / den
  ⟨(a.exponent + l + up) * logTwo p + 2 * oddSeries p 1 (scaleDown (z * z) p) p z 1, p⟩

def quarterTurns (x : Float) (p : Nat) : Int × Int :=
  let a := magnitude x
  let extra := (a.exponent + 53).toNat + 8
  let right := piFixed (p + extra) / 2
  let v := signedFixed x (p + extra)
  let k := (2 * v + right) / (2 * right)
  (k % 4, scaleDown (v - k * right) extra)

def sineSeries (r : Int) (p : Nat) : Int := alternatingSeries p (scaleDown (r * r) p) p r 1

def cosineSeries (r : Int) (p : Nat) : Int := alternatingSeries p (scaleDown (r * r) p) p (Nat.pow 2 p) 0

def turnedSine (turns : Int) (x : Float) (p : Nat) : Approximation :=
  let (k, r) := quarterTurns x p
  match ((k + turns) % 4).toNat with
  | 0 => ⟨sineSeries r p, p⟩
  | 1 => ⟨cosineSeries r p, p⟩
  | 2 => ⟨-sineSeries r p, p⟩
  | _ => ⟨-cosineSeries r p, p⟩

def halveAngle (p : Nat) (t : Int) : Int :=
  let root : Int := Nat.sqrt ((Nat.pow 2 (2 * p) + t * t).toNat)
  t * Nat.pow 2 p / (Nat.pow 2 p + root)

def arctanSeries (p : Nat) (t : Int) : Int :=
  let z := halveAngle p (halveAngle p (halveAngle p t))
  8 * oddSeries p (-1) (scaleDown (z * z) p) p z 1

def arctanApproximation (x : Float) (p : Nat) : Approximation :=
  let v := (magnitude x).fixed p
  let angle :=
    if v ≤ Nat.pow 2 p then arctanSeries p v else piFixed p / 2 - arctanSeries p (Nat.pow 2 (2 * p) / v)
  ⟨if isNegative x then -angle else angle, p⟩

/-! ## The functions -/

/-- Below `2 ^ -28` a sine and an arc tangent round to their argument. -/
def isTiny (x : Float) : Bool := exponentField x < 1023 - 28

def exp (x : Float) : Float :=
  if x.isNaN then x
  else if x > 710 then infinity false
  else if x < -746 then zero false
  else settled (expApproximation x)

def log (x : Float) : Float :=
  if x.isNaN then x
  else if x == 0 then infinity true
  else if isNegative x then notANumber
  else if x.isInf then x
  else if x == 1 then zero false
  else settled (logApproximation x)

def sin (x : Float) : Float :=
  if x.isNaN || x.isInf then notANumber
  else if isTiny x then x
  else settled (turnedSine 0 x)

def cos (x : Float) : Float :=
  if x.isNaN || x.isInf then notANumber
  else settled (turnedSine 1 x)

def arctan (x : Float) : Float :=
  if x.isNaN || isTiny x then x
  else if x.isInf then roundAt (if isNegative x then -(piFixed 192 / 2) else piFixed 192 / 2) 192
  else settled (arctanApproximation x)

end JossLang.Double
