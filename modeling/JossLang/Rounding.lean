/-!
# Rounding

A quotient of natural numbers to the nearest natural number.
-/

namespace JossLang

def roundHalfEven (num den : Nat) : Nat :=
  let q := num / den
  let r := num % den
  if 2 * r < den then q else if den < 2 * r then q + 1 else if q % 2 = 0 then q else q + 1

end JossLang
