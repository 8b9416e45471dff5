import JossLang.Command.Reading
import JossLang.Session.Evaluation
import JossLang.Text.Lines

/-!
# Execution of lines

A line is read and carried out. Each command is recorded in the log before it
takes effect; handlers see its start and its end. A step that is run by `Do`
has a frame of its own, which stays when the step fails, so that the frames
left over show where the session was.
-/

namespace JossLang

variable {ω : Type} (setup : Setup ω)

/-! ## Extensions -/

def runHandlers (notice : Notice) : List (Handler ω) → Run ω Unit
  | [] => pure ()
  | h :: hs => do
    h.run notice
    runHandlers notice hs

def notify (notice : Notice) : Run ω Unit :=
  blame (.hookFailed notice.event) (·.log.lastPos?)
    (runHandlers notice (setup.registry.handlersOf notice.event))

def runRules (notice : StepNotice) : List (StepRule ω) → Run ω Unit
  | [] => pure ()
  | r :: rs => do
    if notice.index % r.every = 0 then r.run notice
    runRules notice rs

def State.record (s : State ω) (verbose : Bool) (action : Action) (pos : Location) : State ω :=
  let snapshot := if verbose then some s.environment.snapshot else none
  { s with log := s.log.record action (s.frames.head?.map (·.number)) (some pos) snapshot }

/-- Records an action, and calls the rules that are due at its entry. -/
def record (action : Action) (pos : Location) : Run ω Unit := do
  let index := (← get).log.nextIndex
  modify (·.record setup.verbose action pos)
  blame .ruleFailed (fun _ => some pos) (runRules ⟨index, action, pos⟩ setup.registry.rules)

/-! ## Verbs -/

def deliver (text : String) : Run ω Unit := fun s =>
  match setup.sink text s.world with
  | (.ok (), world) => (.ok (), { s with world := world, typed := text :: s.typed })
  | (.error message, world) => (.error (.foreign message), { s with world := world })

theorem deliver_run (text : String) (s : State ω) :
    (deliver setup text).run s = match setup.sink text s.world with
      | (.ok (), world) => (.ok (), { s with world := world, typed := text :: s.typed })
      | (.error message, world) => (.error (.foreign message), { s with world := world }) := rfl

def typeOut (text : String) : Run ω Unit := do
  notify setup (.output text)
  deliver setup text

def Item.text : Item → Run ω String
  | .quoted _ s => pure s
  | .numeric _ e => return (← evaluate setup e).written

def typeItems : List Item → Run ω Unit
  | [] => pure ()
  | item :: items => do
    typeOut setup (← item.text setup)
    typeOut setup "\n"
    typeItems items

def setEnvironment (env : Environment) : Run ω Unit := modify fun s => { s with environment := env }

def assign (target : Target) (v : Value) : Run ω Unit := do
  if target.indices.isEmpty then
    let env := (← get).environment
    match v with
    | .function _ => setEnvironment (← orRaise none (env.setFunction target.name v))
    | .scalar _ => setEnvironment (← orRaise none (env.setScalar target.name v))
  else
    let indices ← evalAll setup (applyAt setup setup.limits.calls) [] target.indices
    setEnvironment ((← get).environment.setElement target.name (indices.map Value.toIndex) v)

def defineFunction (name : String) (params : List String) (body : Expr) : Run ω Unit :=
  modify fun s =>
    let env := s.environment
    let f : Callable := .user env.defined ⟨name, params, body⟩
    { s with environment := { env.bind name (.function f) with defined := env.defined + 1 } }

/-! ## Loops -/

def repetitions? (count : Float) : Option Nat :=
  if count.isFinite then some (Double.floor count).toNat
  else if count > 0 then none
  else some 0

def repeatRun (run : Run ω Unit) : Nat → Run ω Unit
  | 0 => pure ()
  | n + 1 => do
    run
    repeatRun run n

def Loop.run (body : Run ω Unit) : Loop → Run ω Unit
  | .once => body
  | .times count => do
    match repetitions? (← evaluate setup count).toNumber with
    | some n => repeatRun body n
    | none => do
      repeatRun body setup.limits.values
      throw .endless
  | .each loopVar range =>
    foldRange setup.limits.values
      (fun _ v => do
        setEnvironment (← orRaise none ((← get).environment.setScalar loopVar v))
        body)
      () (evalTerms setup (applyAt setup setup.limits.calls) [] range.terms)

/-! ## Commands -/

abbrev StepRunner (ω : Type) := Step → Location → Run ω Unit

def runSteps (runStep : StepRunner ω) (pos : Location) : List Step → Run ω Unit
  | [] => pure ()
  | s :: ss => do
    runStep s pos
    runSteps runStep pos ss

def Program.stepsOf (p : Program) (pos : Location) : Goal → Except Failure (List Step)
  | .step number =>
    match p.step? number with
    | some s => .ok [s]
    | none => .error (.error (.runtime { cause := .noSuchStep number, pos := some pos }))
  | .part part =>
    if p.hasPart part then (p.partSteps part).mapError fun number => .foreign (quoted number.spelling)
    else .error (.error (.runtime { cause := .noSuchPart part, pos := some pos }))

def runGoal (runStep : StepRunner ω) (goal : Goal) (pos : Location) : Run ω Unit := do
  match (← get).program.stepsOf pos goal with
  | .ok steps => runSteps runStep pos steps
  | .error failure => throw failure

def Verb.run (runStep : StepRunner ω) : Verb → Run ω Unit
  | .blank _ => pure ()
  | .type _ items => typeItems setup items
  | .set _ target value => do assign setup target (← evaluate setup value)
  | .define _ name params body => defineFunction name params body
  | .perform pos goal loop => loop.run setup (runGoal runStep goal pos)

def guardHolds : Option Expr → Run ω Bool
  | none => pure true
  | some e => return (← evaluate setup e).toTruth

def pushFrame (activity : Activity) (caller : Location) : Run ω Unit :=
  modify fun s =>
    { s with
      frames := ⟨s.frameCount, activity, some caller⟩ :: s.frames
      frameCount := s.frameCount + 1 }

def popFrame : Run ω Unit := modify fun s => { s with frames := s.frames.tail }

/-- Carries out a command with at most `depth` steps inside one another. -/
def Command.run : (depth : Nat) → Command → Run ω Unit
  | depth, c => do
    record setup (.command c.verb.label) c.pos
    notify setup (.beforeCommand c)
    if ← guardHolds setup c.guard then
      c.verb.run setup fun step pos =>
        match depth with
        | 0 => do
          if setup.limits.framed then pushFrame (.step step.number) pos
          throw .limit
        | n + 1 => do
          pushFrame (.step step.number) pos
          step.command.run n
          popFrame
    notify setup (.afterCommand c)

def Line.run : Line → Run ω Unit
  | .direct c => c.run setup setup.limits.steps
  | .stored pos number c => do
    record setup (.stored number) pos
    modify fun s => { s with program := s.program.store number c }

/-! ## Lines of text -/

def runText (text : String) : Run ω Unit := do
  notify setup (.lineStart text)
  match Line.parse ⟨setup.file, (← get).lineNumber, text.toList⟩ with
  | .ok line => line.run setup
  | .error e => throw (.error (.parse e))

def internalError (s : State ω) (cause : Cause) : LineError :=
  .runtime { cause := cause, pos := s.log.lastPos?, step := s.log.last?.map (·.index) }

/-- Tells the handlers about an error. If one of them fails, its error takes the place of the
first. -/
def report (e : LineError) (s : State ω) : LineError × State ω :=
  match (notify setup (.onError e)).run s with
  | (.ok _, s') => (e, s')
  | (.error (.error e'), s') => (e', s')
  | (.error (.foreign message), s') => (internalError s' (.internal message), s')

/-- The error that a failure ends a line with, and the state after it. A fault that is tied to no
log entry is tied to the last one. -/
def settle (failure : Failure) (s : State ω) : LineError × State ω :=
  match failure with
  | .error (.parse e) => report setup (.parse e) s
  | .error (.runtime e) => report setup (.runtime { e with step := e.step <|> s.log.last?.map (·.index) }) s
  | .error (.stray (.plain message)) => (internalError s (.internal message), s)
  | .limit => (internalError s .limitReached, s)
  | .endless => (.stray .endless, s)
  | .foreign message => (internalError s (.internal message), s)

def evaluateLine (text : String) (s : State ω) : Option LineError × State ω :=
  let s := { s with lineNumber := s.lineNumber + 1, frames := [.top] }
  match (runText setup text).run s with
  | (.ok _, s') => (none, s')
  | (.error failure, s') =>
    let (e, s'') := settle setup failure s'
    (some e, s'')

def evaluateLines : List String → State ω → List LineError × State ω
  | [], s => ([], s)
  | l :: ls, s =>
    let (e, s') := evaluateLine setup l s
    let (es, s'') := evaluateLines ls s'
    (e.toList ++ es, s'')

/-- Evaluates lines one after the other. An error ends its line only, but what is stray ends them all. -/
def evaluateUntilStray : List String → State ω → List LineError × State ω
  | [], s => ([], s)
  | l :: ls, s =>
    match evaluateLine setup l s with
    | (some (.stray x), s') => ([.stray x], s')
    | (e, s') =>
      let (es, s'') := evaluateUntilStray ls s'
      (e.toList ++ es, s'')

def programLines (text : String) : List String := (splitNewlines text.toList).map String.ofList

def evaluateText (text : String) (s : State ω) : List LineError × State ω :=
  evaluateUntilStray setup (programLines text) s

end JossLang
