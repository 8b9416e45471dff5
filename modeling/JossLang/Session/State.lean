import JossLang.Environment
import JossLang.Log
import JossLang.Program

/-!
# State of a session

A session has an environment, a program and a log, the texts it has typed, and
the frames that are under way. The world beyond it, where typed texts go and
where extensions act, is a type of its own.

Running changes the state and gives a value, or stops with a failure; what was
changed before the failure stays.
-/

namespace JossLang

/-- The texts that were typed and the frames under way stand newest first. The marks are counted that
were given to results. -/
structure State (ω : Type) where
  environment : Environment
  program : Program := {}
  log : Log := .start
  typed : List String := []
  frames : List Frame := [.top]
  frameCount : Nat := 1
  lineNumber : Nat := 0
  marks : Nat := 0
  world : ω

abbrev Run (ω : Type) := ExceptT Failure (StateM (State ω))

section
variable {ω α : Type}

def State.typedSince (s earlier : State ω) : String :=
  String.join (s.typed.take (s.typed.length - earlier.typed.length)).reverse

def raise (cause : Cause) (pos : Option Location := none) : Run ω α :=
  throw (.error (.runtime { cause := cause, pos := pos }))

def orRaise (pos : Option Location) : Except Cause α → Run ω α
  | .ok a => pure a
  | .error c => raise c pos

def marked : Value → Run ω Value
  | .number x m => do
    if x.isNaN then
      modify fun s => { s with marks := s.marks + 1 }
      return .number x (← get).marks
    else return .number x m
  | v => return v

/-- Turns what an extension raised on its own into an error of the language, at a place that may
depend on the state reached. -/
def blame (cause : String → Cause) (pos : State ω → Option Location) (run : Run ω α) : Run ω α :=
  fun s =>
    match run s with
    | (.error (.foreign message), s') =>
      (.error (.error (.runtime { cause := cause message, pos := pos s' })), s')
    | result => result

end

end JossLang
