import JossLang.Command
import JossLang.Double.Literal
import JossLang.ParseError
import JossLang.Token

/-!
# Reading a line

A command is read from the tokens of its line with one token of look-ahead.
Operators of one precedence group to the left. Whether the brackets behind a
name hold indices or an iterated argument is decided by what follows the first
expression in them.

Each rule takes a bound on how deep its calls may nest; `nestingBound` is
enough for any line.
-/

namespace JossLang

/-- Reading takes tokens from a stream, and may fail; either way it tells where in the stream it
ended. -/
abbrev Reader := ExceptT ParseError (StateM Stream)

structure Source where
  file : String
  line : Int
  text : List Char

def Source.statement (src : Source) : String := String.ofList (trim src.text)

def Source.at (src : Source) (t : Token) : Location := ⟨src.file, src.line, t.column, src.statement⟩

namespace Reader

def peek : Reader Token := do return (← get).peek

def next : Reader Token := do
  let (t, s) := (← get).next
  set s
  return t

def fail {α : Type} (cause : ParseCause) (t : Token) : Reader α := throw ⟨cause, some t.column⟩

def accept (l : Lexeme) : Reader Bool := do
  if (← peek).lexeme = l then
    discard next
    return true
  else return false

def expect (place : Place) (l : Lexeme) : Reader Token := do
  let t ← next
  if t.lexeme = l then return t else fail (.unexpected place (.lexeme l) t.lexeme) t

def expectKind (place : Place) (k : Kind) : Reader Token := do
  let t ← next
  if t.lexeme.kind = k then return t else fail (.unexpected place (.kind k) t.lexeme) t

def expectName (place : Place) : Reader (String × Token) := do
  let t ← next
  match t.lexeme with
  | .name s => return (s, t)
  | l => fail (.unexpected place (.kind .name) l) t

def expectNumber (place : Place) : Reader String := do
  let t ← next
  match t.lexeme with
  | .number s => return s
  | l => fail (.unexpected place (.kind .number) l) t

end Reader

open Reader

/-! ## Expressions -/

def nextPrecedence : Reader (Option (Operator × Nat)) := do
  let t ← peek
  match t.lexeme with
  | .operator o => return some (o, o.precedence)
  | .caret => fail (.unknownOperator .caret) t
  | _ => return none

/-- An equality whose left side is a bare name starts an iterated argument. -/
def loopStart? : Expr → Option (String × Expr)
  | .binary _ .eq (.reference _ v []) start => some (v, start)
  | _ => none

variable (src : Source)

mutual

def readExpr : (depth : Nat) → Reader Expr
  | 0 => throw ⟨.tooDeep, none⟩
  | n + 1 => do readOperators n (← readOperand n) 0

def readOperand : (depth : Nat) → Reader Expr
  | 0 => throw ⟨.tooDeep, none⟩
  | n + 1 => do
    let t ← peek
    match t.lexeme with
    | .number s =>
      discard next
      return .number (src.at t) (Double.ofLiteral s.toList)
    | .name _ => readReference n
    | .opening b =>
      discard next
      readGroup n (src.at t) b (← readExpr n) []
    | .operator .sub =>
      discard next
      return .binary (src.at t) .sub (.number (src.at t) 0) (← readOperand n)
    | .operator .add =>
      discard next
      return .binary (src.at t) .add (.number (src.at t) 0) (← readOperand n)
    | l => fail (.notAnOperand l) t

def readOperators : (depth : Nat) → Expr → (least : Nat) → Reader Expr
  | 0, _, _ => throw ⟨.tooDeep, none⟩
  | n + 1, lhs, least => do
    match ← nextPrecedence with
    | none => return lhs
    | some (o, p) =>
      if p < least then return lhs
      else
        discard next
        let rhs ← readTighter n (← readOperand n) p
        readOperators n (.binary lhs.pos o lhs rhs) least

def readTighter : (depth : Nat) → Expr → (than : Nat) → Reader Expr
  | 0, _, _ => throw ⟨.tooDeep, none⟩
  | n + 1, rhs, p => do
    match ← nextPrecedence with
    | none => return rhs
    | some (_, q) => if p < q then readTighter n (← readOperators n rhs q) p else return rhs

/-- The rest of a group. What is followed by a colon was a condition; the branches so far are kept
last one first. -/
def readGroup : (depth : Nat) → Location → Bracket → Expr → List Branch → Reader Expr
  | 0, _, _, _, _ => throw ⟨.tooDeep, none⟩
  | n + 1, pos, b, e, branches => do
    if ← accept .colon then
      let result ← readExpr n
      discard (expectKind .beforeDefault .semicolon)
      readGroup n pos b (← readExpr n) (.mk e result :: branches)
    else
      discard (expect .closingBracket (.closing b))
      return if branches.isEmpty then e else .conditional pos branches.reverse e

def readReference : (depth : Nat) → Reader Expr
  | 0 => throw ⟨.tooDeep, none⟩
  | n + 1 => do
    let (name, t) ← expectName .variableName
    match (← peek).lexeme with
    | .opening b =>
      discard next
      let first ← readExpr n
      match loopStart? first with
      | some (v, start) => readIterated n (src.at t) name b v start.pos start [] [first]
      | none => readIndices n (src.at t) name b [first]
    | _ => return .reference (src.at t) name []

def readIndices : (depth : Nat) → Location → String → Bracket → List Expr → Reader Expr
  | 0, _, _, _, _ => throw ⟨.tooDeep, none⟩
  | n + 1, pos, name, b, indices => do
    if ← accept .comma then readIndices n pos name b ((← readExpr n) :: indices)
    else
      discard (expect .endOfArguments (.closing b))
      return .reference pos name indices.reverse

/-- The terms of an iterated argument and its body. Without a step in any term and without a body,
these were plain indices. Both lists are kept last one first. -/
def readIterated : (depth : Nat) → Location → String → Bracket → String → Location → Expr →
    List Term → List Expr → Reader Expr
  | 0, _, _, _, _, _, _, _, _ => throw ⟨.tooDeep, none⟩
  | n + 1, pos, name, b, v, rangePos, start, terms, indices => do
    let terms := (← readTerm n start) :: terms
    if ← accept .comma then
      let start ← readExpr n
      readIterated n pos name b v rangePos start terms (start :: indices)
    else
      let t ← peek
      let plain := terms.all fun | .single _ => true | .stepped _ _ _ => false
      if t.lexeme = .colon then
        discard next
        let body ← readExpr n
        discard (expect .closingBracket (.closing b))
        return .reduction pos name v (.mk rangePos terms.reverse) body
      else if plain ∧ t.lexeme = .closing b then
        discard next
        return .reference pos name indices.reverse
      else fail (.noIteratedBody t.lexeme) t

def readTerm : (depth : Nat) → Expr → Reader Term
  | 0, _ => throw ⟨.tooDeep, none⟩
  | n + 1, start => do
    match (← peek).lexeme with
    | .opening b =>
      discard next
      let step ← readExpr n
      discard (expect .endOfRangeStep (.closing b))
      return .stepped start step (← readExpr n)
    | _ => return .single start

end

/-! ## Commands -/

/-- A depth of calls that no line exceeds: between two tokens taken, at most a few rules call one
another. -/
def nestingBound (s : Stream) : Nat := 8 * (s.rest.length + 2)

def readWhole : Reader Expr := do readExpr src (nestingBound (← get))

def readItem : Reader Item := do
  let t ← peek
  match t.lexeme with
  | .text s =>
    discard next
    return .quoted (src.at t) s
  | .name _ | .number _ | .operator _ | .caret | .opening _ => return .numeric (src.at t) (← readWhole src)
  | l => fail (.notTypable l) t

def readItems : (depth : Nat) → List Item → Reader (List Item)
  | 0, _ => throw ⟨.tooDeep, none⟩
  | n + 1, items => do
    let item ← readItem src
    if ← accept .comma then readItems n (item :: items) else return (item :: items).reverse

def readTarget : Reader Target := do
  let t ← peek
  match ← readReference src (nestingBound (← get)) with
  | .reference pos name indices => return ⟨pos, name, indices⟩
  | _ => fail .iteratedTarget t

def readParams : (depth : Nat) → List String → Reader (List String)
  | 0, _ => throw ⟨.tooDeep, none⟩
  | n + 1, params => do
    let (p, _) ← expectName .parameterName
    if ← accept .comma then readParams n (p :: params) else return (p :: params).reverse

def readDefinition (pos : Location) : Reader Verb := do
  let (name, _) ← expectName .functionName
  let params ← match (← peek).lexeme with
    | .opening b => do
      discard next
      let ps ← readParams (nestingBound (← get)) []
      discard (expect .endOfParameters (.closing b))
      pure ps
    | _ => pure []
  discard (expect .afterDefined (.operator .eq))
  return .define pos name params (← readWhole src)

def liftNumber {α : Type} (literal : String) : Except NumberFault α → Reader α
  | .ok a => pure a
  | .error fault => throw ⟨.badNumber fault literal, none⟩

def readTerms : (depth : Nat) → List Term → Reader (List Term)
  | 0, _ => throw ⟨.tooDeep, none⟩
  | n + 1, terms => do
    let term ← readTerm src (nestingBound (← get)) (← readWhole src)
    if ← accept .comma then readTerms n (term :: terms) else return (term :: terms).reverse

def readRange : Reader Range := do
  let t ← peek
  let terms ← readTerms src (nestingBound (← get)) []
  let after ← peek
  if after.lexeme = .period ∨ after.lexeme = .keyword .guard then return .mk (src.at t) terms
  else fail (.unfinishedRange after.lexeme) after

def readGoal : Reader Goal := do
  let t ← next
  match t.lexeme with
  | .keyword .step =>
    let literal ← expectNumber .stepNumber
    return .step (← liftNumber literal (StepNumber.ofLiteral literal))
  | .keyword .part =>
    let literal ← expectNumber .partNumber
    return .part (← liftNumber literal (partOf literal))
  | _ => fail .noDoTarget t

def readLoop : Reader Loop := do
  if ← accept (.keyword .each) then
    let (v, _) ← expectName .loopVariable
    discard (expect .afterLoopVariable (.operator .eq))
    return .each v (← readRange src)
  else if ← accept .comma then
    let count ← readWhole src
    discard (expect .afterCount (.keyword .times))
    return .times count
  else return .once

def readVerb (t : Token) : Reader Verb :=
  match t.lexeme with
  | .finish => return .blank (src.at t)
  | .keyword .type => do return .type (src.at t) (← readItems src (nestingBound (← get)) [])
  | .keyword .set => do
    let target ← readTarget src
    discard (expect .afterTarget (.operator .eq))
    return .set (src.at t) target (← readWhole src)
  | .keyword .define => readDefinition src (src.at t)
  | .keyword .perform => do
    let goal ← readGoal
    return .perform (src.at t) goal (← readLoop src)
  | .keyword k => fail (.notACommand k) t
  | l => fail (.noVerb l) t

def readCommand : Reader Command := do
  let t ← next
  let verb ← readVerb src t
  if ← accept (.keyword .guard) then return ⟨src.at t, verb, some (← readWhole src)⟩
  else return ⟨src.at t, verb, none⟩

def readLine : Reader Line := do
  let t ← peek
  match t.lexeme with
  | .finish => return .direct ⟨src.at t, .blank (src.at t), none⟩
  | .number literal =>
    discard next
    let number ← liftNumber literal (StepNumber.ofLiteral literal)
    let command ← readCommand src
    discard (expectKind .endOfCommand .period)
    return .stored (src.at t) number command
  | _ =>
    let command ← readCommand src
    discard (expectKind .endOfCommand .period)
    return .direct command

def Line.read (src : Source) : Except ParseError Line × Stream :=
  (readLine src).run (Stream.ofLine src.text)

def Line.parse (src : Source) : Except ParseError Line := (Line.read src).1

end JossLang
