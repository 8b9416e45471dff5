import JossLang.Session.Setup
import JossLang.Text.Quoted

/-!
# Evaluation of expressions

An expression has a value in the state of a session and a scope, the names
bound around it by calls and iterated arguments. Evaluation goes from left to
right; how functions are applied is a parameter, and `applyAt` applies them
with a bound on calls inside one another.
-/

namespace JossLang

abbrev Scope := List (String × Value)

inductive Progression where
  | single (v : Value)
  | stepped (start step stop : Float)

section
variable {ω α : Type}

def foldSteps (f : α → Value → Run ω α) (step stop : Float) : (limit : Nat) → α → (x : Float) → Run ω α
  | 0, _, _ => throw .endless
  | n + 1, a, x =>
    if x < stop then do foldSteps f step stop n (← f a (.number x)) (x + step) else pure a

def Progression.fold (limit : Nat) (f : α → Value → Run ω α) (a : α) : Progression → Run ω α
  | .single v => f a v
  | .stepped start step stop => foldSteps f step stop limit a start

def foldRange (limit : Nat) (f : α → Value → Run ω α) (a : α) : List (Run ω Progression) → Run ω α
  | [] => pure a
  | term :: terms => do foldRange limit f (← (← term).fold limit f a) terms

end

abbrev Apply (ω : Type) := Callable → List Value → Location → Run ω Value

section
variable {ω : Type} (setup : Setup ω)

def valueOf (scope : Scope) (name : String) (pos : Location) : Run ω Value :=
  match scope.lookup name with
  | some v => pure v
  | none => do
    match (← get).environment.get? setup.isBuiltin name with
    | some v => pure v
    | none => raise (.unbound name) pos

variable (apply : Apply ω)

mutual

/-- The indices of a name count only if it stands for a function. -/
def Expr.eval (scope : Scope) : Expr → Run ω Value
  | .number _ x => pure (.number x)
  | .reference pos name indices => do
    match ← valueOf setup scope name pos with
    | .function f =>
      if indices.isEmpty then return .function f
      else apply f (← evalAll scope indices) pos
    | v => return v
  | .binary _ op lhs rhs =>
    match operations.lookup op.spelling with
    | some operation => do
      let a ← lhs.eval scope
      marked (operation a (← rhs.eval scope))
    | none => throw (.foreign (quoted op.spelling))
  | .conditional _ branches otherwise => do
    match ← evalBranches scope branches with
    | some v => pure v
    | none => otherwise.eval scope
  | .reduction pos function loopVar (.mk _ terms) body => do
    match ← valueOf setup scope function pos with
    | .function f =>
      let results ← foldRange setup.limits.values
        (fun results v => return (← body.eval ((loopVar, v) :: scope)) :: results) []
        (evalTerms scope terms)
      apply f results.reverse pos
    | .scalar _ => raise (.notAFunction function) pos

def evalAll (scope : Scope) : List Expr → Run ω (List Value)
  | [] => pure []
  | e :: es => do
    let v ← e.eval scope
    return v :: (← evalAll scope es)

def evalBranches (scope : Scope) : List Branch → Run ω (Option Value)
  | [] => pure none
  | .mk condition result :: branches => do
    if (← condition.eval scope).toTruth then return some (← result.eval scope)
    else evalBranches scope branches

/-- The terms of a range, each to be evaluated when it is reached. Of a stepped term the end comes
first, then the step, then the start. -/
def evalTerms (scope : Scope) : List Term → List (Run ω Progression)
  | [] => []
  | .single value :: terms =>
    (do return Progression.single (← value.eval scope)) :: evalTerms scope terms
  | .stepped start step stop :: terms =>
    (do
      let last ← stop.eval scope
      let width ← step.eval scope
      let first ← start.eval scope
      return Progression.stepped first.toNumber width.toNumber last.toNumber) :: evalTerms scope terms

end

/-! ## Calls -/

def applyBuiltin (name : String) (args : List Value) (pos : Location) : Run ω Value :=
  match Builtin.all.find? (·.name == name) with
  | some b =>
    match b.arity.fault? name args.length with
    | some c => raise c pos
    | none => marked (b.apply setup.elementary args)
  | none =>
    match setup.registry.functions.find? (·.name == name) with
    | some f =>
      match f.arity.fault? name args.length with
      | some c => raise c pos
      | none => f.run args pos
    | none => raise (.unbound name) pos

/-- The scope of a call; of two parameters with one name the later one counts. -/
def UserFunction.scope (f : UserFunction) (args : List Value) : Scope := (f.params.zip args).reverse

/-- Applies a function with at most `depth` calls of defined functions inside one another. -/
def applyAt : (depth : Nat) → Apply ω
  | depth, f, args, pos =>
    match f with
    | .builtin name => applyBuiltin setup name args pos
    | .array serial _ => do
      orRaise pos (((← get).environment.table serial).get (args.map Value.toIndex))
    | .user _ function =>
      if args.length ≠ function.params.length then
        raise (.wrongArguments function.name function.params.length args.length) pos
      else match depth with
        | 0 => throw .limit
        | n + 1 => function.body.eval setup (applyAt n) (function.scope args)

def evaluate (e : Expr) : Run ω Value := e.eval setup (applyAt setup setup.limits.calls) []

end

end JossLang
