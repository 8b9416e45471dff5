import JossLang.Builtin
import JossLang.Session.State
import JossLang.Text.Identifier

/-!
# Registry

What extensions add to a session: functions, handlers of events, and rules
that are called at every so many log entries. The handlers of an event run in
the order of descending priority, and of registration where priorities are
equal.

A registration that is refused leaves the registry as it was; of a module that
is refused, what it registered before stays.
-/

namespace JossLang

def apiVersion : Int := 1

structure Metadata where
  name : String
  version : String := "0.0.0"
  requires : Int := apiVersion
deriving DecidableEq, Repr

inductive Notice where
  | lineStart (text : String)
  | beforeCommand (command : Command)
  | afterCommand (command : Command)
  | output (text : String)
  | onError (error : LineError)

def Notice.event : Notice → Event
  | lineStart _ => .lineStart
  | beforeCommand _ => .beforeCommand
  | afterCommand _ => .afterCommand
  | output _ => .output
  | onError _ => .onError

structure Handler (ω : Type) where
  event : Event
  priority : Int
  extension : String
  run : Notice → Run ω Unit

structure StepNotice where
  index : Nat
  action : Action
  pos : Location

structure StepRule (ω : Type) where
  name : String
  every : Nat
  every_pos : 0 < every
  extension : String
  run : StepNotice → Run ω Unit

structure AddedFunction (ω : Type) where
  name : String
  arity : Arity
  doc : String := ""
  run : List Value → Location → Run ω Value

structure Registry (ω : Type) where
  metadata : List Metadata := []
  functions : List (AddedFunction ω) := []
  handlers : List (Handler ω) := []
  rules : List (StepRule ω) := []

/-! ## Registration -/

inductive RegistrationFault where
  | invalidName (function : String)
  | alreadyRegistered (function : String)
  | unknownEvent (event : String)
  | badInterval (rule : String)
  | overridesBuiltin (function : String)
  | wrongApi (extension : String) (wanted : Int)
  | noRegister (extension : String)
  | notFound (path : String)
  | notImportable (path : String)
deriving DecidableEq, Repr

def RegistrationFault.message : RegistrationFault → String
  | invalidName f => "Invalid function name '" ++ f ++ "'"
  | alreadyRegistered f => "Function '" ++ f ++ "' is already registered"
  | unknownEvent e =>
    "Unknown event '" ++ e ++ "' (expected one of " ++ ", ".intercalate (Event.all.map Event.label) ++ ")"
  | badInterval r => "every_n_steps for '" ++ r ++ "' must be >= 1"
  | overridesBuiltin f => "Cannot override existing function '" ++ f ++ "'"
  | wrongApi x w =>
    "Extension " ++ x ++ " needs API " ++ spellInt w ++ "; this interpreter provides " ++ spellInt apiVersion
  | noRegister x => "Extension " ++ x ++ " has no callable joss_register(ext)"
  | notFound p => "Extension not found: " ++ p
  | notImportable p => "Cannot import extension: " ++ p

abbrev Registering (ω : Type) := ExceptT RegistrationFault (StateM (Registry ω))

namespace Registry

variable {ω : Type}

def addMetadata (m : Metadata) : Registering ω Unit :=
  modify fun r => { r with metadata := r.metadata ++ [m] }

def addFunction (f : AddedFunction ω) : Registering ω Unit := do
  if !isIdentifier f.name.toList then throw (.invalidName f.name)
  else if (← get).functions.any (·.name == f.name) then throw (.alreadyRegistered f.name)
  else modify fun r => { r with functions := r.functions ++ [f] }

def insertHandler (h : Handler ω) : List (Handler ω) → List (Handler ω)
  | [] => [h]
  | g :: rest => if g.priority < h.priority then h :: g :: rest else g :: insertHandler h rest

def addHandler (label : String) (priority : Int) (extension : String) (run : Notice → Run ω Unit) :
    Registering ω Unit :=
  match Event.all.find? (·.label == label) with
  | none => throw (.unknownEvent label)
  | some e => modify fun r => { r with handlers := insertHandler ⟨e, priority, extension, run⟩ r.handlers }

def addRule (name : String) (every : Int) (extension : String) (run : StepNotice → Run ω Unit) :
    Registering ω Unit :=
  if h : 0 < every then
    modify fun r => { r with rules := r.rules ++ [⟨name, every.toNat, by omega, extension, run⟩] }
  else throw (.badInterval name)

def handlersOf (r : Registry ω) (e : Event) : List (Handler ω) := r.handlers.filter (·.event = e)

end Registry

/-! ## Modules -/

/-- An extension: the interface it is written for, the name it gives itself, and what it registers
under its name. -/
structure Module (ω : Type) where
  api : Int := apiVersion
  name : Option String := none
  register : Option (String → Registering ω Unit)

def Module.load {ω : Type} (m : Module ω) (fallback : String) : Registering ω Unit :=
  if m.api ≠ apiVersion then throw (.wrongApi fallback m.api)
  else match m.register with
    | none => throw (.noRegister fallback)
    | some register => register (m.name.getD fallback)

end JossLang
