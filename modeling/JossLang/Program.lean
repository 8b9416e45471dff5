import JossLang.Assoc
import JossLang.Command

/-!
# Stored programs

Commands kept under their step numbers. There are two tables: one has the steps
by the spelling of their numbers, the other lists the steps of each part in the
order of their fractions. A step is known by its spelling, so a command stored
under a spelling that is already there takes the place of the old one, and the
lists stay as they are.
-/

namespace JossLang

structure Step where
  number : StepNumber
  command : Command

structure Program where
  table : List (String × Step) := []
  order : List (String × List String) := []

namespace Program

def step? (p : Program) (number : StepNumber) : Option Step := p.table.lookup number.spelling

def listed (p : Program) (part : String) : List String := (p.order.lookup part).getD []

def hasPart (p : Program) (part : String) : Bool := !(p.listed part).isEmpty

def lookUp (p : Program) (part : String) : List String → Except StepNumber (List Step)
  | [] => .ok []
  | step :: steps =>
    match p.step? ⟨part, step⟩ with
    | some s => return s :: (← p.lookUp part steps)
    | none => .error ⟨part, step⟩

def partSteps (p : Program) (part : String) : Except StepNumber (List Step) := p.lookUp part (p.listed part)

/-! ## Storing -/

/-- Halves the places from `lo` to `hi` until one is left: those below it are before, if the places that are
before are the first ones. Each halving leaves fewer places. -/
def bisect (before : Nat → Bool) : (halvings lo hi : Nat) → Nat
  | 0, lo, _ => lo
  | n + 1, lo, hi =>
    if lo < hi then
      let mid := (lo + hi) / 2
      if before mid then bisect before n (mid + 1) hi else bisect before n lo mid
    else lo

def placeOf (step : String) (steps : List String) : Nat :=
  bisect (fun i => precedes (steps.getD i "") step) steps.length 0 steps.length

def insertStep (step : String) (steps : List String) : List String :=
  let i := placeOf step steps
  steps.take i ++ step :: steps.drop i

/-- Puts a step into the table and, if it is new, into the list of its part. -/
def store (p : Program) (number : StepNumber) (command : Command) : Program :=
  let table := put number.spelling ⟨number, command⟩ p.table
  if (p.step? number).isSome then { p with table := table }
  else { table := table, order := put number.part (insertStep number.step (p.listed number.part)) p.order }

end Program

end JossLang
