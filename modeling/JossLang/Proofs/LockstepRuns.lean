import JossLang.Proofs.Lockstep
import JossLang.Proofs.SessionAgreement

/-!
# Lines in step

Verbs go in step when the changes that they make do (`agree_verb`); steps that
are run by `Do` may be run in different ways, as long as these agree. So do
commands (`command_agree`), and lines one after the other (`lineByLine_agree`).
-/

namespace JossLang

variable {ω ω' : Type}

/-- The ways in which verbs change an environment. A name becomes an array only when an element of it is set. -/
inductive Environment.Change : (Environment → Environment) → Prop where
  | bind (x : String) (b : Binding) (hb : ∀ serial, b ≠ .array serial) : Change (·.bind x b)
  | setElement (x : String) (indices : List Index) (v : Value) : Change (·.setElement x indices v)
  | define (x : String) (params : List String) (body : Expr) : Change fun env =>
      { env.bind x (.function (.user env.defined ⟨x, params, body⟩)) with defined := env.defined + 1 }

theorem Environment.change_scalar (x : String) (a : Scalar) : Change (·.bind x (.scalar a)) := .bind x _ nofun

theorem Environment.change_function (x : String) (f : Callable) : Change (·.bind x (.function f)) := .bind x _ nofun

namespace Lockstep

variable {C : Lockstep ω ω'}

/-! ## Verbs -/

theorem agree_deliver {text : String}
    (hsame : ∀ s s', C.states s s' → (C.left.sink text s.world).1 = (C.right.sink text s'.world).1)
    (htaken : ∀ s s', C.states s s' →
      C.states { s with world := (C.left.sink text s.world).2, typed := text :: s.typed }
        { s' with world := (C.right.sink text s'.world).2, typed := text :: s'.typed })
    (hrefused : ∀ message s s', C.states s s' → (C.left.sink text s.world).1 = .error message →
      C.failed (.foreign message) { s with world := (C.left.sink text s.world).2 }
        { s' with world := (C.right.sink text s'.world).2 }) :
    C.Agree (deliver C.left text) (deliver C.right text) := by
  intro s s' hs
  have hsame := hsame s s' hs
  have htaken := htaken s s' hs
  have hrefused := fun message => hrefused message s s' hs
  rw [deliver_run, deliver_run]
  generalize C.left.sink text s.world = r at hsame htaken hrefused ⊢
  generalize C.right.sink text s'.world = r' at hsame htaken hrefused ⊢
  obtain ⟨result, w⟩ := r
  obtain ⟨result', w'⟩ := r'
  obtain rfl : result = result' := hsame
  cases result with
  | ok a => exact .ok htaken
  | error message => exact .error (hrefused message rfl)

structure Performs (C : Lockstep ω ω') : Prop extends Lawful C where
  program : ∀ s s', C.states s s' → s'.program = s.program ∧
    ∀ pos goal f, s.program.stepsOf pos goal = .error f → C.failed f s s'
  environment : ∀ g, Environment.Change g → ∀ s s', C.states s s' →
    C.states { s with environment := g s.environment } { s' with environment := g s'.environment }
  output : ∀ text, C.Agree (notify C.left (.output text)) (notify C.right (.output text))
  delivered : ∀ text, C.Agree (deliver C.left text) (deliver C.right text)

section
variable (hC : C.Performs)
include hC

theorem agree_change {g : Environment → Environment} (hg : Environment.Change g) :
    C.Agree (do setEnvironment (g (← get).environment)) (do setEnvironment (g (← get).environment)) :=
  agree_get fun s s' hs => .ok (hC.environment g hg s s' hs)

theorem agree_typeOut (text : String) : C.Agree (typeOut C.left text) (typeOut C.right text) :=
  (hC.output text).bind fun _ => hC.delivered text

theorem agree_text (item : Item) : C.Agree (item.text C.left) (item.text C.right) := by
  cases item with
  | quoted _ text => exact agree_pure text
  | numeric _ e => exact (evaluate_agree hC.toLawful e).bind fun _ => agree_pure _

theorem agree_typeItems : ∀ items, C.Agree (typeItems C.left items) (typeItems C.right items)
  | [] => agree_pure ()
  | item :: items => by
    rw [typeItems, typeItems]
    exact (agree_text hC item).bind fun text => (agree_typeOut hC text).bind fun _ => (agree_typeOut hC "\n").bind fun _ =>
      agree_typeItems items

theorem agree_assign (target : Target) (v : Value) : C.Agree (assign C.left target v) (assign C.right target v) := by
  unfold assign
  split
  · cases v with
    | scalar s => exact agree_change hC (Environment.change_scalar target.name s)
    | function f => exact agree_change hC (Environment.change_function target.name f)
  · refine (agree_evalAll hC.toLawful (agree_applyAt hC.toLawful hC.calls) target.indices []).bind fun indices => ?_
    exact agree_change hC (.setElement target.name _ v)

theorem agree_defineFunction (name : String) (params : List String) (body : Expr) :
    C.Agree (defineFunction name params body) (defineFunction name params body) :=
  agree_modify (hC.environment _ (.define name params body))

/-! ## Loops -/

omit hC in
theorem agree_repeatRun {body : Run ω Unit} {body' : Run ω' Unit} (hb : C.Agree body body') :
    ∀ n, C.Agree (repeatRun body n) (repeatRun body' n)
  | 0 => agree_pure ()
  | n + 1 => hb.bind fun _ => agree_repeatRun hb n

theorem agree_loop {body : Run ω Unit} {body' : Run ω' Unit} (hb : C.Agree body body') (loop : Loop) :
    C.Agree (loop.run C.left body) (loop.run C.right body') := by
  cases loop with
  | once => exact hb
  | times count =>
    rw [Loop.run, Loop.run, hC.values]
    refine (evaluate_agree hC.toLawful count).bind fun v => ?_
    split
    · exact agree_repeatRun hb _
    · exact (agree_repeatRun hb _).bind fun _ => hC.agree_endless
  | each x range =>
    rw [Loop.run, Loop.run, hC.values]
    refine agree_foldRange hC.toLawful (fun _ v => ?_) _
      (agree_evalTerms hC.toLawful (agree_applyAt hC.toLawful hC.calls) range.terms []) ()
    cases v with
    | scalar a =>
      have hset : C.Agree (do setEnvironment ((← get).environment.bind x (.scalar a)))
          (do setEnvironment ((← get).environment.bind x (.scalar a))) := agree_change hC (Environment.change_scalar x a)
      exact hset.bind fun _ => hb
    | function f => exact hC.agree_raise (.functionAsScalar x) none

/-! ## Steps -/

omit hC in
theorem agree_runSteps {runStep : StepRunner ω} {runStep' : StepRunner ω'} (pos : Location) :
    ∀ steps : List Step, (∀ step ∈ steps, C.Agree (runStep step pos) (runStep' step pos)) →
      C.Agree (runSteps runStep pos steps) (runSteps runStep' pos steps)
  | [], _ => agree_pure ()
  | step :: steps, h => by
    obtain ⟨hstep, h⟩ := List.forall_mem_cons.mp h
    exact hstep.bind fun _ => agree_runSteps pos steps h

theorem agree_runGoal {runStep : StepRunner ω} {runStep' : StepRunner ω'} (goal : Goal) (pos : Location)
    (hr : ∀ s s' steps, C.states s s' → s.program.stepsOf pos goal = .ok steps → ∀ step ∈ steps,
      C.Agree (runStep step pos) (runStep' step pos)) :
    C.Agree (runGoal runStep goal pos) (runGoal runStep' goal pos) := by
  intro s s' hs
  obtain ⟨hprogram, hmissing⟩ := hC.program s s' hs
  rw [Comparison.runGoal_run, Comparison.runGoal_run, hprogram]
  cases hsteps : s.program.stepsOf pos goal with
  | ok steps => exact agree_runSteps pos steps (hr s s' steps hs hsteps) s s' hs
  | error f => exact .error (hmissing pos goal f hsteps)

theorem agree_guardHolds (guard : Option Expr) : C.Agree (guardHolds C.left guard) (guardHolds C.right guard) := by
  cases guard with
  | none => exact agree_pure true
  | some e => exact (evaluate_agree hC.toLawful e).bind fun _ => agree_pure _

theorem agree_verb {runStep : StepRunner ω} {runStep' : StepRunner ω'} (v : Verb)
    (hr : ∀ pos goal loop, v = .perform pos goal loop → ∀ s s' steps, C.states s s' →
      s.program.stepsOf pos goal = .ok steps → ∀ step ∈ steps, C.Agree (runStep step pos) (runStep' step pos)) :
    C.Agree (v.run C.left runStep) (v.run C.right runStep') := by
  cases v with
  | blank _ => exact agree_pure ()
  | type _ items => exact agree_typeItems hC items
  | set _ target value => exact (evaluate_agree hC.toLawful value).bind fun v => agree_assign hC target v
  | define _ name params body => exact agree_defineFunction hC name params body
  | perform pos goal loop => exact agree_loop hC (agree_runGoal hC goal pos (hr pos goal loop rfl)) loop

end

/-! ## Commands -/

/-- What two sessions must have in common for what was read to go in step. Handlers and rules may fail, as long
as they do so on both sides. -/
structure Carries (C : Lockstep ω ω') : Prop extends Performs C where
  notify : ∀ notice, notice.event ≠ .onError → C.Agree (notify C.left notice) (notify C.right notice)
  output text := notify (.output text) nofun
  file : C.right.file = C.left.file
  lineNumber : ∀ s s', C.states s s' → s'.lineNumber = s.lineNumber
  unread : ∀ e s s', C.states s s' → C.failed (.error (.parse e)) s s'
  record : ∀ action pos, C.Agree (record C.left action pos) (record C.right action pos)
  pushFrame : ∀ activity caller, C.Agree (pushFrame activity caller) (pushFrame activity caller)
  popFrame : C.Agree popFrame popFrame
  store : ∀ number command s s', C.states s s' →
    C.states { s with program := s.program.store number command } { s' with program := s'.program.store number command }

section
variable (hC : C.Carries)
include hC

theorem command_agree_of_steps {d d' : Nat} (hr : ∀ step pos, C.Agree (Comparison.stepRunner C.left d step pos)
    (Comparison.stepRunner C.right d' step pos)) (c : Command) : C.Agree (c.run C.left d) (c.run C.right d') := by
  rw [Comparison.command_run, Comparison.command_run]
  refine (hC.record _ _).bind fun _ => (hC.notify (.beforeCommand c) nofun).bind fun _ =>
    (agree_guardHolds hC.toPerforms c.guard).bind fun b => ?_
  have hverb : C.Agree (c.verb.run C.left (Comparison.stepRunner C.left d))
      (c.verb.run C.right (Comparison.stepRunner C.right d')) :=
    agree_verb hC.toPerforms c.verb fun pos _ _ _ _ _ _ _ _ step _ => hr step pos
  split
  · exact hverb.bind fun _ => hC.notify (.afterCommand c) nofun
  · exact hC.notify (.afterCommand c) nofun

theorem stepRunner_agree_zero {d' : Nat} (hd : C.Depths 0 d') (step : Step) (pos : Location) :
    C.Agree (Comparison.stepRunner C.left 0 step pos) (Comparison.stepRunner C.right d' step pos) := by
  have hexcused : (∀ s, C.excused .limit s) →
      C.Agree (Comparison.stepRunner C.left 0 step pos) (Comparison.stepRunner C.right d' step pos) := fun he s s' _ => by
    obtain ⟨frames, count, hrun⟩ := Comparison.stepRunner_zero C.left step pos s
    rw [hrun]
    exact .excused (he _)
  rcases hC.limits with hlimits | ⟨-, he⟩
  · cases d' with
    | zero =>
      rw [Comparison.stepRunner, Comparison.stepRunner, hlimits]
      split
      · exact (hC.pushFrame _ _).bind fun _ => hC.agree_limit
      · exact hC.agree_limit
    | succ d' => exact hexcused hd.excused
  · exact hexcused he

/-- **Commands** go in step. -/
theorem command_agree {d d' : Nat} (hd : C.Depths d d') (c : Command) : C.Agree (c.run C.left d) (c.run C.right d') := by
  induction d generalizing d' c with
  | zero => exact command_agree_of_steps hC (stepRunner_agree_zero hC hd) c
  | succ d ih =>
    obtain _ | d' := d'
    · exact hd.not_zero.elim
    have hstep : ∀ step pos, C.Agree (Comparison.stepRunner C.left (d + 1) step pos)
        (Comparison.stepRunner C.right (d' + 1) step pos) := fun step _ =>
      (hC.pushFrame _ _).bind fun _ => (ih hd.pred step.command).bind fun _ => hC.popFrame
    exact command_agree_of_steps hC hstep c

theorem line_agree (line : Line) : C.Agree (line.run C.left) (line.run C.right) := by
  cases line with
  | direct c => exact command_agree hC hC.steps c
  | stored pos number c =>
    rw [Line.run, Line.run]
    exact (hC.record _ _).bind fun _ => agree_modify (hC.store number c)

theorem runText_agree (text : String) : C.Agree (runText C.left text) (runText C.right text) := by
  unfold runText
  refine (hC.notify (.lineStart text) nofun).bind fun _ => agree_get fun s s' hs => ?_
  rw [hC.lineNumber s s' hs, hC.file]
  cases Line.parse ⟨C.left.file, s.lineNumber, text.toList⟩ with
  | ok line => exact line_agree hC line s s' hs
  | error e => exact .error (hC.unread e s s' hs)

end

/-! ## Lines -/

structure Runs (C : Lockstep ω ω') : Prop extends Carries C where
  failed : ∀ f t t', C.failed f t t' ↔ C.states t t'
  starts : ∀ s s', C.states s s' → s'.lineNumber = s.lineNumber ∧
    C.states { s with lineNumber := s.lineNumber + 1, frames := [.top] }
      { s' with lineNumber := s'.lineNumber + 1, frames := [.top] }
  reported : ∀ e t t', C.states t t' →
    (report C.right e t').1 = (report C.left e t).1 ∧ C.states (report C.left e t).2 (report C.right e t').2
  last : ∀ s s', C.states s s' → s'.log.lastPos? = s.log.lastPos? ∧
    s'.log.last?.map (·.index) = s.log.last?.map (·.index)
  lineNumber s s' hs := (starts s s' hs).1
  unread _ s s' hs := (failed _ s s').mpr hs

theorem report_of_notified {e : LineError} {t : State ω} {t' : State ω'}
    (h : ∃ u u', (JossLang.notify C.left (.onError e)).run t = (.ok (), u) ∧
      (JossLang.notify C.right (.onError e)).run t' = (.ok (), u') ∧ C.states u u') :
    (report C.right e t').1 = (report C.left e t).1 ∧ C.states (report C.left e t).2 (report C.right e t').2 := by
  obtain ⟨u, u', hu, hu', hs⟩ := h
  rw [report, report, hu, hu']
  exact ⟨rfl, hs⟩

section
variable (hC : C.Runs)
include hC

theorem ending_eq (f : Failure) {t : State ω} {t' : State ω'} (ht : C.states t t') : f.ending t' = f.ending t := by
  obtain ⟨hpos, hindex⟩ := hC.last t t' ht
  have hinternal : ∀ cause, internalError t' cause = internalError t cause := fun cause => by
    rw [internalError, internalError, hpos, hindex]
  cases f with
  | error e => cases e with
    | parse e => rfl
    | runtime e => rw [Failure.ending, Failure.ending, hindex]
    | stray x => cases x with
      | endless => rfl
      | _ => exact hinternal _
  | foreign message => exact hinternal _

theorem settle_agree (f : Failure) {t : State ω} {t' : State ω'} (ht : C.states t t') :
    (settle C.right f t').1 = (settle C.left f t).1 ∧ C.states (settle C.left f t).2 (settle C.right f t').2 := by
  rcases settle_cases C.left f t with ⟨hf, h⟩ | ⟨hf, h⟩
  · obtain ⟨-, h'⟩ := (settle_cases C.right f t').resolve_right fun h' => h'.1 hf
    rw [h, h', ending_eq hC f ht]
    exact hC.reported _ t t' ht
  · obtain ⟨-, h'⟩ := (settle_cases C.right f t').resolve_left fun h' => hf h'.1
    rw [h, h', ending_eq hC f ht]
    exact ⟨rfl, ht⟩

end

inductive LineOutcome (C : Lockstep ω ω') : Option LineError × State ω → Option LineError × State ω' → Prop where
  | same {e : Option LineError} {t : State ω} {t' : State ω'} : C.states t t' → LineOutcome C (e, t) (e, t')
  | excused {f : Failure} {t : State ω} {x : Option LineError × State ω'} : C.excused f t →
      LineOutcome C (some (settle C.left f t).1, (settle C.left f t).2) x

end Lockstep

def lineByLine (setup : Setup ω) : List String → State ω → List (Option LineError × State ω)
  | [], _ => []
  | l :: ls, s => evaluateLine setup l s :: lineByLine setup ls (evaluateLine setup l s).2

namespace Lockstep

variable {C : Lockstep ω ω'} (hC : C.Runs)
include hC

/-- **Lines** go in step. -/
theorem evaluateLine_agree (text : String) {s : State ω} {s' : State ω'} (hs : C.states s s') :
    C.LineOutcome (evaluateLine C.left text s) (evaluateLine C.right text s') := by
  have ho := runText_agree hC.toCarries text _ _ (hC.starts s s' hs).2
  rw [evaluateLine, evaluateLine]
  generalize (runText C.left text).run { s with lineNumber := s.lineNumber + 1, frames := [.top] } = r at ho ⊢
  generalize (runText C.right text).run { s' with lineNumber := s'.lineNumber + 1, frames := [.top] } = r' at ho ⊢
  cases ho with
  | ok ht => exact .same ht
  | @error f t t' ht =>
    obtain ⟨he, hu⟩ := settle_agree hC f ((hC.failed f t t').mp ht)
    dsimp only
    rw [he]
    exact .same hu
  | excused ht => exact .excused ht

/-- **Sessions** go in step, when no line on the left ends with what is excused. -/
theorem lineByLine_agree : ∀ (ls : List String) {s : State ω} {s' : State ω'}, C.states s s' →
    (∀ x ∈ lineByLine C.left ls s, ∀ f t, C.excused f t → x ≠ (some (settle C.left f t).1, (settle C.left f t).2)) →
    List.Forall₂ (fun x x' => x'.1 = x.1 ∧ C.states x.2 x'.2) (lineByLine C.left ls s) (lineByLine C.right ls s')
  | [], _, _, _, _ => .nil
  | l :: ls, s, s', hs, hexcused => by
    rw [lineByLine] at hexcused
    obtain ⟨hl, hls⟩ := List.forall_mem_cons.mp hexcused
    rw [lineByLine, lineByLine]
    have ho := evaluateLine_agree hC l hs
    generalize evaluateLine C.left l s = x at ho hl hls ⊢
    generalize evaluateLine C.right l s' = x' at ho ⊢
    cases ho with
    | same ht => exact .cons ⟨rfl, ht⟩ (lineByLine_agree ls ht hls)
    | excused ht => exact absurd rfl (hl _ _ ht)

end Lockstep

/-! ## Without handlers and rules -/

structure Setup.Unhooked (setup : Setup ω) : Prop where
  handlers : setup.registry.handlers = []
  rules : setup.registry.rules = []

namespace Setup.Unhooked

variable {setup : Setup ω} (hu : setup.Unhooked)
include hu

theorem notify_run (notice : Notice) (s : State ω) : (notify setup notice).run s = (.ok (), s) := by
  rw [notify, Registry.handlersOf, hu.handlers]
  rfl

theorem record_run (action : Action) (pos : Location) (s : State ω) :
    (record setup action pos).run s = (.ok (), s.record setup.verbose action pos) := by
  unfold record
  rw [hu.rules]
  rfl

theorem report_eq (e : LineError) (s : State ω) : report setup e s = (e, s) := by
  rw [report, hu.notify_run]

theorem settle_eq (f : Failure) (s : State ω) : settle setup f s = (f.ending s, s) := by
  rcases settle_cases setup f s with ⟨-, h⟩ | ⟨-, h⟩
  · rw [h, hu.report_eq]
  · exact h

end Setup.Unhooked

theorem Setup.Bare.unhooked {setup : Setup ω} (hbare : setup.Bare) : setup.Unhooked := ⟨hbare.handlers, hbare.rules⟩

end JossLang
