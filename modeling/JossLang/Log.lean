import JossLang.Command

/-!
# Log

Every command that is started and every line that is stored leaves an entry in
the log. Entries are numbered from zero, and each one names the state it came
from and the state it leads to. The first entry, the seed, stands for the state
before any command.
-/

namespace JossLang

/-! ## Frames -/

inductive Activity where
  | topLevel
  | step (number : StepNumber)
deriving DecidableEq, Repr

def Activity.label : Activity → String
  | topLevel => "<top-level>"
  | step n => "step " ++ n.spelling

/-- An activity that is under way, and the command that called for it. -/
structure Frame where
  number : Nat
  activity : Activity
  caller : Option Location
deriving DecidableEq, Repr

namespace Frame

def top : Frame := ⟨0, .topLevel, none⟩

end Frame

def padded (width n : Nat) : String :=
  let ds := digitsOf n
  String.ofList (List.replicate (width - ds.length) '0' ++ ds)

def frameId (n : Nat) : String := "f_" ++ padded 4 n

def stateId (n : Nat) : String := "s_" ++ padded 6 n

/-! ## Entries -/

inductive Action where
  | seed
  | command (verb : String)
  | stored (number : StepNumber)
deriving DecidableEq, Repr

def Action.label : Action → String
  | seed => "SEED"
  | command verb => verb
  | stored _ => "StoredCommand"

structure Entry where
  index : Nat
  previous : Option Nat
  action : Action
  frame : Option Nat
  pos : Option Location
  snapshot : Option (List (String × String))
deriving DecidableEq, Repr

namespace Entry

def statement (e : Entry) : String :=
  match e.pos with
  | some p => p.statement
  | none => "<seed>"

def fromState (e : Entry) : String :=
  match e.previous with
  | some n => stateId n
  | none => "seed"

def toState (e : Entry) : String := stateId e.index

end Entry

/-- Entries, the newest first. -/
structure Log where
  entries : List Entry := []

namespace Log

def toList (log : Log) : List Entry := log.entries.reverse

def last? (log : Log) : Option Entry := log.entries.head?

def lastPos? (log : Log) : Option Location := log.last?.bind (·.pos)

def nextIndex (log : Log) : Nat :=
  match log.last? with
  | some e => e.index + 1
  | none => 0

def record (log : Log) (action : Action) (frame : Option Nat) (pos : Option Location)
    (snapshot : Option (List (String × String))) : Log :=
  ⟨⟨log.nextIndex, log.last?.map (·.index), action, frame, pos, snapshot⟩ :: log.entries⟩

def lastOfFrame? (log : Log) (frame : Nat) : Option Entry :=
  log.entries.find? (·.frame == some frame)

def start : Log := ({} : Log).record .seed none none none

end Log

end JossLang
