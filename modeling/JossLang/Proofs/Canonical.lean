import JossLang.Command
import JossLang.Double.Literal

/-!
# Canonical forms

How the tree of a line is written so that reading it again gives the same tree:
every operand is a number, a name, a call, or stands in round brackets. A number
may be written in any way that denotes its value.

Trees are compared without the places they came from.
-/

namespace JossLang

/-! ## Expressions -/

def boxed (ls : List Lexeme) : List Lexeme := .opening .round :: (ls ++ [.closing .round])

mutual

def Expr.Writes : Expr → List Lexeme → Prop
  | .number _ x, ls => ∃ s : String, Double.ofLiteral s.toList = x ∧ ls = [.number s]
  | .reference _ name [], ls => ls = [.name name]
  | .reference _ name (i :: is), ls => ∃ li lr, i.Writes li ∧ writesIndices is lr ∧
      ls = .name name :: boxed (boxed li ++ lr)
  | .binary _ o lhs rhs, ls => ∃ ll lr, lhs.Writes ll ∧ rhs.Writes lr ∧ ls = boxed (ll ++ .operator o :: lr)
  | .conditional _ branches otherwise, ls => branches ≠ [] ∧ ∃ lb lo, writesBranches branches lb ∧
      otherwise.Writes lo ∧ ls = boxed (lb ++ boxed lo)
  | .reduction _ function loopVar range body, ls => ∃ lr lb, range.Writes lr ∧ body.Writes lb ∧
      ls = .name function :: boxed (.name loopVar :: .operator .eq :: (lr ++ .colon :: lb))

def writesIndices : List Expr → List Lexeme → Prop
  | [], ls => ls = []
  | i :: is, ls => ∃ li lr, i.Writes li ∧ writesIndices is lr ∧ ls = .comma :: (boxed li ++ lr)

def writesBranches : List Branch → List Lexeme → Prop
  | [], ls => ls = []
  | .mk condition result :: bs, ls => ∃ lc lr lb, condition.Writes lc ∧ result.Writes lr ∧ writesBranches bs lb ∧
      ls = boxed lc ++ .colon :: (boxed lr ++ .semicolon :: lb)

def Range.Writes : Range → List Lexeme → Prop
  | .mk _ [], _ => False
  | .mk _ (t :: ts), ls => ∃ lt lr, t.Writes lt ∧ writesTerms ts lr ∧ ls = lt ++ lr

def Term.Writes : Term → List Lexeme → Prop
  | .single value, ls => ∃ lv, value.Writes lv ∧ ls = boxed lv
  | .stepped start step stop, ls => ∃ la lb lc, start.Writes la ∧ step.Writes lb ∧ stop.Writes lc ∧
      ls = boxed la ++ (boxed lb ++ boxed lc)

def writesTerms : List Term → List Lexeme → Prop
  | [], ls => ls = []
  | t :: ts, ls => ∃ lt lr, t.Writes lt ∧ writesTerms ts lr ∧ ls = .comma :: (lt ++ lr)

end

/-! ## Commands -/

def Item.Writes : Item → List Lexeme → Prop
  | .quoted _ text, ls => ls = [.text text]
  | .numeric _ value, ls => value.Writes ls

def writesItems : List Item → List Lexeme → Prop
  | [], ls => ls = []
  | i :: is, ls => ∃ li lr, i.Writes li ∧ writesItems is lr ∧ ls = .comma :: (li ++ lr)

def paramLexemes : List String → List Lexeme
  | [] => []
  | p :: ps => boxed (.name p :: ps.flatMap fun q => [.comma, .name q])

def Goal.lexemes : Goal → List Lexeme
  | .part p => [.keyword .part, .number p]
  | .step n => [.keyword .step, .number n.spelling]

def Loop.Writes : Loop → List Lexeme → Prop
  | .once, ls => ls = []
  | .times count, ls => ∃ lc, count.Writes lc ∧ ls = .comma :: (lc ++ [.keyword .times])
  | .each loopVar range, ls => ∃ lr, range.Writes lr ∧ ls = .keyword .each :: .name loopVar :: .operator .eq :: lr

def Verb.Writes : Verb → List Lexeme → Prop
  | .blank _, _ => False
  | .type _ [], _ => False
  | .type _ (i :: is), ls => ∃ li lr, i.Writes li ∧ writesItems is lr ∧ ls = .keyword .type :: (li ++ lr)
  | .set _ target value, ls => ∃ lt lv, (Expr.reference target.pos target.name target.indices).Writes lt ∧
      value.Writes lv ∧ ls = .keyword .set :: (lt ++ .operator .eq :: lv)
  | .define _ name params body, ls => ∃ lb, body.Writes lb ∧
      ls = .keyword .define :: .name name :: (paramLexemes params ++ .operator .eq :: lb)
  | .perform _ goal loop, ls => ∃ ll, loop.Writes ll ∧ ls = .keyword .perform :: (goal.lexemes ++ ll)

def writesGuard : Option Expr → List Lexeme → Prop
  | none, ls => ls = []
  | some e, ls => ∃ le, e.Writes le ∧ (ls = .keyword .guard :: le ∨ ls = .keyword .guard :: boxed le)

def Command.Writes (c : Command) (ls : List Lexeme) : Prop :=
  ∃ lv lg, c.verb.Writes lv ∧ writesGuard c.guard lg ∧ ls = lv ++ (lg ++ [.period])

def Line.Writes : Line → List Lexeme → Prop
  | .direct ⟨_, .blank _, none⟩, ls => ls = []
  | .direct c, ls => c.Writes ls
  | .stored _ number c, ls => ∃ lc, c.Writes lc ∧ ls = .number number.spelling :: lc

/-! ## Trees without places -/

def nowhere : Location := ⟨"", 0, 0, ""⟩

mutual

def Expr.bare : Expr → Expr
  | .number _ x => .number nowhere x
  | .reference _ name indices => .reference nowhere name (bareAll indices)
  | .binary _ o lhs rhs => .binary nowhere o lhs.bare rhs.bare
  | .conditional _ branches otherwise => .conditional nowhere (bareBranches branches) otherwise.bare
  | .reduction _ function loopVar range body => .reduction nowhere function loopVar range.bare body.bare

def bareAll : List Expr → List Expr
  | [] => []
  | e :: es => e.bare :: bareAll es

def Branch.bare : Branch → Branch
  | .mk condition result => .mk condition.bare result.bare

def bareBranches : List Branch → List Branch
  | [] => []
  | b :: bs => b.bare :: bareBranches bs

def Range.bare : Range → Range
  | .mk _ terms => .mk nowhere (bareTerms terms)

def Term.bare : Term → Term
  | .single value => .single value.bare
  | .stepped start step stop => .stepped start.bare step.bare stop.bare

def bareTerms : List Term → List Term
  | [] => []
  | t :: ts => t.bare :: bareTerms ts

end

theorem bareAll_eq (es : List Expr) : bareAll es = es.map Expr.bare := by
  induction es with
  | nil => rfl
  | cons e es ih => rw [bareAll, ih, List.map_cons]

theorem bareBranches_eq (bs : List Branch) : bareBranches bs = bs.map Branch.bare := by
  induction bs with
  | nil => rfl
  | cons b bs ih => rw [bareBranches, ih, List.map_cons]

theorem bareTerms_eq (ts : List Term) : bareTerms ts = ts.map Term.bare := by
  induction ts with
  | nil => rfl
  | cons t ts ih => rw [bareTerms, ih, List.map_cons]

def Item.bare : Item → Item
  | .quoted _ text => .quoted nowhere text
  | .numeric _ value => .numeric nowhere value.bare

def Target.bare (t : Target) : Target := ⟨nowhere, t.name, bareAll t.indices⟩

def Loop.bare : Loop → Loop
  | .once => .once
  | .times count => .times count.bare
  | .each loopVar range => .each loopVar range.bare

def Verb.bare : Verb → Verb
  | .blank _ => .blank nowhere
  | .type _ items => .type nowhere (items.map Item.bare)
  | .set _ target value => .set nowhere target.bare value.bare
  | .define _ name params body => .define nowhere name params body.bare
  | .perform _ goal loop => .perform nowhere goal loop.bare

def Command.bare (c : Command) : Command := ⟨nowhere, c.verb.bare, c.guard.map Expr.bare⟩

def Line.bare : Line → Line
  | .direct c => .direct c.bare
  | .stored _ number c => .stored nowhere number c.bare

end JossLang
