import JossLang.Lexeme
import JossLang.StepNumber

/-!
# Parse errors

What is wrong with a line, at which column, and how it is said.
-/

namespace JossLang

inductive Place where
  | endOfCommand
  | afterTarget
  | functionName
  | parameterName
  | endOfParameters
  | afterDefined
  | stepNumber
  | partNumber
  | loopVariable
  | afterLoopVariable
  | afterCount
  | beforeDefault
  | closingBracket
  | variableName
  | endOfArguments
  | endOfRangeStep
deriving DecidableEq, Repr

def Place.label : Place → String
  | endOfCommand => "end of command"
  | afterTarget => "after Set target"
  | functionName => "function name"
  | parameterName => "function argument name"
  | endOfParameters => "end of function arguments"
  | afterDefined => "after Let target"
  | stepNumber => "step number"
  | partNumber => "part number"
  | loopVariable => "variable for range"
  | afterLoopVariable => "= for range"
  | afterCount => "times after repeat count"
  | beforeDefault => "expression for default condition"
  | closingBracket => "closing bracket"
  | variableName => "variable name"
  | endOfArguments => "variable argument"
  | endOfRangeStep => "end of step in range"

inductive Wanted where
  | kind (k : Kind)
  | lexeme (l : Lexeme)
deriving DecidableEq, Repr

def Wanted.label : Wanted → String
  | kind k => k.label
  | lexeme l => l.kind.label ++ " '" ++ l.spelling ++ "'"

inductive ParseCause where
  | unexpected (place : Place) (wanted : Wanted) (found : Lexeme)
  | notACommand (found : Keyword)
  | noVerb (found : Lexeme)
  | notTypable (found : Lexeme)
  | noDoTarget
  | notAnOperand (found : Lexeme)
  | unknownOperator (found : Lexeme)
  | iteratedTarget
  | noIteratedBody (found : Lexeme)
  | unfinishedRange (found : Lexeme)
  | badNumber (fault : NumberFault) (literal : String)
  | raised (message : String)
  | tooDeep
deriving DecidableEq, Repr

def NumberFault.message (literal : String) : NumberFault → String
  | stepWithoutPoint => "Invalid step '" ++ literal ++ "' (must be like 1.1, not 1)"
  | malformedStep => "Invalid step '" ++ literal ++ "'"
  | stepWithoutFraction => "Invalid step '" ++ literal ++ "' (step number must not be zero)"
  | partWithPoint => "Invalid part '" ++ literal ++ "' (must be like 1, not 1.1)"
  | malformedPart => "Invalid part '" ++ literal ++ "'"

def ParseCause.message : ParseCause → String
  | unexpected place wanted found =>
    place.label ++ ": expected " ++ wanted.label ++ " but found " ++ found.kind.label ++ " '" ++
      found.spelling ++ "'"
  | notACommand k => "'" ++ k.spelling ++ "' is not a command"
  | noVerb l => "Expecting verb to start command, got '" ++ l.spelling ++ "'"
  | notTypable l => "Can't type '" ++ l.spelling ++ "'"
  | noDoTarget => "Expecting step or part after Do"
  | notAnOperand l => "Unexpected token in numeric expression: got '" ++ l.spelling ++ "'"
  | unknownOperator l => "Unknown operator '" ++ l.spelling ++ "'"
  | iteratedTarget => "Cannot assign to an iterated function argument"
  | noIteratedBody l => "Malformed range: expected ':', got '" ++ l.spelling ++ "'"
  | unfinishedRange l => "Malformed range: expected '.' or 'if', got '" ++ l.spelling ++ "'"
  | badNumber fault literal => fault.message literal
  | raised message => message
  | tooDeep => "Expression is nested too deeply"

/-- An error in a line; the column is absent when the error is in a number as a whole, or comes from
an extension. -/
structure ParseError where
  cause : ParseCause
  column : Option Nat
deriving DecidableEq, Repr

def ParseError.message (e : ParseError) : String :=
  match e.column with
  | some c => e.cause.message ++ " at column " ++ spellNat c
  | none => e.cause.message

end JossLang
