import JossLang.Assoc
import JossLang.Fault
import JossLang.Value

/-!
# Environment

What the names of a session are bound to. A name is a scalar, an array or a
function, one at a time; binding it anew keeps its place in the order of
names. Arrays are cells of a store: two names can stand for one array.
-/

namespace JossLang

/-! ## Arrays -/

/-- The elements of an array by their indices, all of the same number. A sparse array reads zero
where nothing was set. -/
structure Table where
  name : String
  sparse : Bool
  dimensions : Nat := 0
  entries : List (List Index × Value) := []

namespace Table

/-- Indices of another number make the array start anew. -/
def set (t : Table) (indices : List Index) (v : Value) : Table :=
  if indices.length = t.dimensions then { t with entries := put indices v t.entries }
  else { t with dimensions := indices.length, entries := [(indices, v)] }

def get (t : Table) (indices : List Index) : Except Cause Value :=
  if indices.length ≠ t.dimensions then
    .error (.wrongDimensions t.name t.dimensions indices.length)
  else match t.entries.lookup indices with
    | some v => .ok v
    | none => if t.sparse then .ok (.number 0) else .error (.missingElement t.name (indices.map (·.value)))

end Table

/-! ## Bindings -/

inductive Binding where
  | scalar (s : Scalar)
  | array (serial : Nat)
  | function (f : Callable)

def Binding.label : Binding → String
  | scalar _ => "scalar"
  | array _ => "array"
  | function _ => "function"

/-- The bindings in the order of their names' first binding, the arrays by their serial numbers, and
the number of functions defined so far. -/
structure Environment where
  sparse : Bool
  bindings : List (String × Binding) := []
  tables : Array Table := #[]
  defined : Nat := 0

namespace Environment

def binding? (env : Environment) (name : String) : Option Binding := env.bindings.lookup name

def bind (env : Environment) (name : String) (b : Binding) : Environment :=
  { env with bindings := put name b env.bindings }

def table (env : Environment) (serial : Nat) : Table :=
  env.tables.getD serial { name := "", sparse := env.sparse }

def setScalar (env : Environment) (name : String) : Value → Except Cause Environment
  | .scalar s => .ok (env.bind name (.scalar s))
  | .function _ => .error (.functionAsScalar name)

def setFunction (env : Environment) (name : String) : Value → Except Cause Environment
  | .function f => .ok (env.bind name (.function f))
  | .scalar _ => .error (.valueAsFunction name)

def setElement (env : Environment) (name : String) (indices : List Index) (v : Value) : Environment :=
  match env.binding? name with
  | some (.array serial) => { env with tables := env.tables.modify serial (·.set indices v) }
  | _ =>
    let t : Table := { name := name, sparse := env.sparse }
    { env.bind name (.array env.tables.size) with tables := env.tables.push (t.set indices v) }

def bound? (env : Environment) (name : String) : Option Value :=
  (env.binding? name).map fun
    | .scalar s => .scalar s
    | .array serial => .function (.array serial (env.table serial).name)
    | .function f => .function f

def get? (isBuiltin : String → Bool) (env : Environment) (name : String) : Option Value :=
  match env.bound? name with
  | some v => some v
  | none => if isBuiltin name then some (.function (.builtin name)) else none

def names (env : Environment) : List String :=
  (env.bindings.map (·.1)).mergeSort fun a b => decide (a ≤ b)

/-! ## Snapshots -/

def abbreviated (s : String) : String :=
  if s.length > 80 then String.ofList (s.toList.take 77) ++ "..." else s

def render (env : Environment) : Binding → String
  | .scalar s => "scalar:" ++ abbreviated (Value.scalar s).written
  | .function f => "function:" ++ abbreviated (Value.function f).written
  | .array serial =>
    let t := env.table serial
    "array[" ++ spellNat t.dimensions ++ "]:" ++ spellNat t.entries.length

def snapshot (env : Environment) : List (String × String) :=
  env.bindings.map fun (name, b) => (name, env.render b)

end Environment

end JossLang
