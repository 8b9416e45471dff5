import JossLang.Extension.Registry

/-!
# Scripted extensions

Handlers, rules and functions that are described by data: a reaction notes
what it saw, prints it, or raises something, and a function picks one of its
arguments, counts them, binds the first one, or notes where it was called.
They act on a console.
-/

namespace JossLang

inductive Note where
  | remark (tag detail : String)
  | call (function : String) (line : Int) (column : Nat)
deriving DecidableEq, Repr

/-- Where a session shows its texts: the output, the errors, and the notes of extensions. An output that takes no
more texts says why. -/
structure Console where
  out : String := ""
  err : String := ""
  notes : Array Note := #[]
  refusal : Option String := none

namespace Console

def print (text : String) (c : Console) : Console := { c with out := c.out ++ text }

def type (text : String) (c : Console) : Except String Unit × Console :=
  match c.refusal with
  | none => (.ok (), c.print text)
  | some message => (.error message, c)

def complain (text : String) (c : Console) : Console := { c with err := c.err ++ text }

def note (n : Note) (c : Console) : Console := { c with notes := c.notes.push n }

end Console

def onConsole (f : Console → Console) : Run Console Unit := modify fun s => { s with world := f s.world }

namespace Script

inductive Raised where
  | foreign (message : String)
  | fault (message : String) (rule : Option String)
  | parse (message : String)
  | plain (message : String)
deriving DecidableEq, Repr

def Raised.run {α : Type} : Raised → Run Console α
  | foreign message => throw (.foreign message)
  | fault message rule => raise (.raised .plain message rule)
  | parse message => throw (.error (.parse ⟨.raised message, none⟩))
  | plain message => throw (.error (.stray (.plain message)))

inductive Reaction where
  | note (tag : String)
  | print
  | raise (r : Raised)
deriving DecidableEq, Repr

structure Responder where
  reaction : Reaction
  only : Option String := none
deriving DecidableEq, Repr

def Responder.run (r : Responder) (detail : String) : Run Console Unit :=
  if r.only = none ∨ r.only = some detail then
    match r.reaction with
    | .note tag => onConsole (·.note (.remark tag detail))
    | .print => onConsole (·.print ("[" ++ trimmed detail ++ "]"))
    | .raise raised => raised.run
  else pure ()

def noticeDetail : Notice → String
  | .lineStart text => text
  | .beforeCommand c => c.verb.label
  | .afterCommand c => c.verb.label
  | .output text => text
  | .onError e => e.label ++ ": " ++ e.message

def stepDetail (n : StepNotice) : String :=
  let place := spellInt n.pos.line ++ ":" ++ spellNat n.pos.column
  spellNat n.index ++ " " ++ n.action.label ++ " " ++ place ++
    (match n.action with | .stored number => " " ++ number.spelling | _ => "")

inductive Body where
  | argument (index : Nat)
  | last
  | count
  | bind (target : String)
  | place
  | raise (r : Raised)
deriving DecidableEq, Repr

def required : Option Value → Run Console Value
  | some v => pure v
  | none => throw (.foreign "list index out of range")

def Body.run (name : String) (body : Body) (args : List Value) (pos : Location) : Run Console Value :=
  match body with
  | .argument i => required args[i]?
  | .last => required args.getLast?
  | .count => pure (.number (Double.ofNat args.length))
  | .bind target => do
    let v ← required args.head?
    let env ← orRaise none ((← get).environment.setScalar target v)
    modify fun s => { s with environment := env }
    return v
  | .place => do
    onConsole (·.note (.call name pos.line pos.column))
    return .truth true
  | .raise raised => raised.run

def addFunction (name : String) (arity : Arity) (doc : String) (body : Body) : Registering Console Unit :=
  Registry.addFunction ⟨name, arity, doc, body.run name⟩

def addHandler (event : String) (priority : Int) (extension : String) (r : Responder) :
    Registering Console Unit :=
  Registry.addHandler event priority extension fun n => r.run (noticeDetail n)

def addRule (name : String) (every : Int) (extension : String) (r : Responder) :
    Registering Console Unit :=
  Registry.addRule name every extension fun n => r.run (stepDetail n)

end Script

end JossLang
