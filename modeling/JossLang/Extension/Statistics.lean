import JossLang.Extension.Registry

/-!
# Statistics

An extension with the mean, the variance, the standard deviation and the median
of its arguments.
-/

namespace JossLang.Statistics

variable {ω : Type}

def ofSample (name doc : String) (f : List Float → Float) : AddedFunction ω where
  name := name
  arity := ⟨1, none⟩
  doc := doc
  run args _ := marked (.number (f (args.map Value.toNumber)))

def register : Registering ω Unit := do
  Registry.addMetadata { name := "stats", version := "0.1.0" }
  Registry.addFunction (ofSample "mean" "Arithmetic mean" Double.mean)
  Registry.addFunction (ofSample "var" "Population variance" Double.variance)
  Registry.addFunction (ofSample "sd" "Population standard deviation" Double.deviation)
  Registry.addFunction (ofSample "median" "" Double.median)

def module : Module ω := { name := some "stats", register := some fun _ => register }

end JossLang.Statistics
