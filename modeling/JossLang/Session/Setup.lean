import JossLang.Extension.Registry

/-!
# Setup of a session

What stays the same during a session: the name of the file that its lines come
from, what is registered, where typed texts go, how deep steps and calls may
nest, and the elementary functions of the host.
-/

namespace JossLang

/-- How far a session goes before it gives up: stored steps inside one another, calls of defined functions inside
one another, and values of one loop, which is taken to have no end if it has more. How much there is depends on the
host, and `framed` says whether the step that is too much still gets its frame. -/
structure Limits where
  steps : Nat := 500
  calls : Nat := 500
  values : Nat := Nat.pow 2 62
  framed : Bool := false

/-- The sink takes a text, or says why it does not; in both cases it may change the world. -/
structure Setup (ω : Type) where
  file : String := "<input>"
  verbose : Bool := false
  sparse : Bool := false
  registry : Registry ω := {}
  sink : String → ω → Except String Unit × ω
  limits : Limits := {}
  elementary : Elementary := .nearest

def taking {ω : Type} (take : String → ω → ω) (text : String) (world : ω) : Except String Unit × ω :=
  (.ok (), take text world)

def Builtin.asAdded {ω : Type} (host : Elementary) (b : Builtin) : AddedFunction ω :=
  { name := b.name, arity := b.arity, run := fun args _ => marked (b.apply host args) }

namespace Setup

variable {ω : Type} (setup : Setup ω)

def isBuiltin (name : String) : Bool :=
  Builtin.all.any (·.name == name) || setup.registry.functions.any (·.name == name)

def builtins : List (AddedFunction ω) := Builtin.all.map (Builtin.asAdded setup.elementary)

def addToTable (table : List (AddedFunction ω)) (g : AddedFunction ω) : Except RegistrationFault (List (AddedFunction ω)) :=
  if table.any (·.name == g.name) then .error (.overridesBuiltin g.name) else .ok (table ++ [g])

/-- The table of functions of a session: the built-in ones, and behind them those that were added. -/
def build : Except RegistrationFault (List (AddedFunction ω)) :=
  setup.registry.functions.foldlM addToTable setup.builtins

def start (world : ω) : State ω := { environment := { sparse := setup.sparse }, world := world }

def listed (name : String) (arity : Arity) (doc : String) : String :=
  name ++ "(" ++ arity.spelling ++ ")" ++ (if doc.isEmpty then "" else "  " ++ doc)

def listing : List String :=
  let builtins := Builtin.all.map fun b => (b.name, listed b.name b.arity "")
  let added := setup.registry.functions.map fun f => (f.name, listed f.name f.arity f.doc)
  ((builtins ++ added).mergeSort fun a b => decide (a.1 ≤ b.1)).map (·.2)

end Setup

end JossLang
