import JossLang.Command
import JossLang.Double.Written
import JossLang.ParseError

/-!
# Faults

What can go wrong while a line is carried out, and how it is said. A fault has
a kind, a message and the rule that found it.
-/

namespace JossLang

inductive Event where
  | lineStart | beforeCommand | afterCommand | output | onError
deriving DecidableEq, Repr

namespace Event

def label : Event → String
  | lineStart => "line_start"
  | beforeCommand => "before_command"
  | afterCommand => "after_command"
  | output => "output"
  | onError => "on_error"

def all : List Event := [lineStart, beforeCommand, afterCommand, output, onError]

end Event

inductive FaultKind where
  | plain | binding | arity | arrayMiss | undefinedStep
deriving DecidableEq, Repr

def FaultKind.label : FaultKind → String
  | plain => "JossRuntimeError"
  | binding => "JossBindingError"
  | arity => "JossArityError"
  | arrayMiss => "JossArrayMissError"
  | undefinedStep => "JossUndefinedStepError"

inductive Cause where
  | unbound (name : String)
  | functionAsScalar (name : String)
  | valueAsFunction (name : String)
  | wrongDimensions (array : String) (expected got : Nat)
  | missingElement (array : String) (indices : List Float)
  | noSuchStep (number : StepNumber)
  | noSuchPart (part : String)
  | tooFewArguments (function : String) (least : Int)
  | tooManyArguments (function : String) (most : Int)
  | wrongArguments (function : String) (expected got : Nat)
  | notAFunction (name : String)
  | hookFailed (event : Event) (message : String)
  | ruleFailed (message : String)
  | internal (message : String)
  | limitReached
  | raised (kind : FaultKind) (message : String) (rule : Option String)
deriving DecidableEq

namespace Cause

def kind : Cause → FaultKind
  | unbound _ => .binding
  | wrongDimensions _ _ _ | tooFewArguments _ _ | tooManyArguments _ _ | wrongArguments _ _ _ => .arity
  | missingElement _ _ => .arrayMiss
  | noSuchStep _ | noSuchPart _ => .undefinedStep
  | raised k _ _ => k
  | _ => .plain

def message : Cause → String
  | unbound name => "No such variable: " ++ name
  | functionAsScalar name => "Cannot bind a function to scalar '" ++ name ++ "'"
  | valueAsFunction name => "Cannot bind a non-function to function '" ++ name ++ "'"
  | wrongDimensions array expected got =>
    "Attempt to index array '" ++ array ++ "' with incorrect dimensionality (expected " ++
      spellNat expected ++ ", got " ++ spellNat got ++ ")"
  | missingElement array indices =>
    "Missing array contents: " ++ array ++ "(" ++ ",".intercalate (indices.map Double.written) ++ ")"
  | noSuchStep number => "No such step: " ++ number.spelling
  | noSuchPart part => "No such part: " ++ part
  | tooFewArguments function least => function ++ " expects at least " ++ spellInt least ++ " arguments"
  | tooManyArguments function most => function ++ " expects at most " ++ spellInt most ++ " arguments"
  | wrongArguments function expected got =>
    "Function " ++ function ++ " expects " ++ spellNat expected ++ " arguments but received " ++ spellNat got
  | notAFunction name => "'" ++ name ++ "' is not a function"
  | hookFailed event message => "Extension hook '" ++ event.label ++ "' failed: " ++ message
  | ruleFailed message => "Extension step rule failed: " ++ message
  | internal message => "Internal interpreter error: " ++ message
  | limitReached => "Internal interpreter error: maximum recursion depth exceeded"
  | raised _ message _ => message

def rule : Cause → Option String
  | unbound _ => some "IDENT"
  | functionAsScalar _ => some "SET"
  | valueAsFunction _ => some "LET"
  | wrongDimensions _ _ _ | missingElement _ _ => some "INDEX"
  | noSuchStep _ | noSuchPart _ => some "DO"
  | tooFewArguments f _ | tooManyArguments f _ | wrongArguments f _ _ => some f
  | notAFunction name => some name
  | hookFailed _ _ | ruleFailed _ => some "EXT"
  | internal _ | limitReached => some "internal"
  | raised _ _ rule => rule

end Cause

structure RuntimeError where
  cause : Cause
  pos : Option Location := none
  step : Option Nat := none

namespace RuntimeError

def kind (e : RuntimeError) : FaultKind := e.cause.kind

def message (e : RuntimeError) : String := e.cause.message

def rule (e : RuntimeError) : Option String := e.cause.rule

end RuntimeError

/-- What is not held back at the end of a line: an error of no kind, raised while another one was reported, or no
room left there. And a line may have no end. -/
inductive Stray where
  | plain (message : String)
  | exhausted
  | endless
deriving DecidableEq, Repr

namespace Stray

def label : Stray → String
  | plain _ => "JossError"
  | exhausted => "RecursionError"
  | endless => ""

def message : Stray → String
  | plain message => message
  | exhausted => "maximum recursion depth exceeded"
  | endless => ""

end Stray

inductive LineError where
  | parse (e : ParseError)
  | runtime (e : RuntimeError)
  | stray (x : Stray)

namespace LineError

def label : LineError → String
  | parse _ => "JossParseError"
  | runtime e => e.kind.label
  | stray x => x.label

def message : LineError → String
  | parse e => e.message
  | runtime e => e.message
  | stray x => x.message

def isStray : LineError → Bool
  | stray _ => true
  | _ => false

end LineError

/-- What stops a computation inside a line: an error that extensions pass on as it is, or anything else, which was
raised by an extension or by the output. -/
inductive Failure where
  | error (e : LineError)
  | foreign (message : String)

namespace Failure

@[match_pattern] abbrev limit : Failure := .error (.stray .exhausted)

@[match_pattern] abbrev endless : Failure := .error (.stray .endless)

end Failure

end JossLang
