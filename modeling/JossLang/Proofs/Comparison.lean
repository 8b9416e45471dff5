import JossLang.Proofs.Alike
import JossLang.Proofs.Readers
import JossLang.Session.Execution

/-!
# Two sessions side by side

Two computations agree when they take states that are alike to results that are
alike and to states that are alike again (`Agree`). The sessions share their
added functions and their limits; their handlers and rules only watch.

The comparison may stop early: after a failure on the left or on the right that
is excused, nothing is said about the other side.
-/

namespace JossLang

variable {ω : Type}

/-! ## States that are alike -/

def State.arrays (s : State ω) : Nat := s.environment.tables.size

structure State.Alike (L : Likeness) (worlds : ω → ω → Prop) (s s' : State ω) : Prop where
  environment : s.environment.Alike L s'.environment
  typed : s.typed = s'.typed
  marks : s.marks = s'.marks
  worlds : worlds s.world s'.world

structure State.Keeps (s t : State ω) : Prop where
  program : t.program = s.program
  log : t.log = s.log
  frames : t.frames = s.frames
  frameCount : t.frameCount = s.frameCount
  lineNumber : t.lineNumber = s.lineNumber
  arrays : s.arrays ≤ t.arrays

inductive Failure.Alike (place : Location → Location → Prop) : Failure → Failure → Prop where
  | parse (e : ParseError) : Failure.Alike place (.error (.parse e)) (.error (.parse e))
  | runtime (cause : Cause) {pos pos' : Option Location} (step step' : Option Nat) : Option.Rel place pos pos' →
      Failure.Alike place (.error (.runtime ⟨cause, pos, step⟩)) (.error (.runtime ⟨cause, pos', step'⟩))
  | stray (x : Stray) : Failure.Alike place (.error (.stray x)) (.error (.stray x))
  | foreign (message : String) : Failure.Alike place (.foreign message) (.foreign message)

inductive ResultsAlike (L : Likeness) (arrays : Nat) : Except Failure Value → Except Failure Value → Prop where
  | value {v w : Value} : v.Alike L arrays w → ResultsAlike L arrays (.ok v) (.ok w)
  | failure {f f' : Failure} : f.Alike L.place f' → ResultsAlike L arrays (.error f) (.error f')

/-! ## Extensions that stay out -/

/-- A handler that has returned has changed the world only, and not in a way that counts. -/
def Watches (worlds : ω → ω → Prop) (m : Run ω Unit) : Prop :=
  ∀ s, ∃ w, m.run s = (.ok (), { s with world := w }) ∧
    ∀ v, (worlds s.world v → worlds w v) ∧ (worlds v s.world → worlds v w)

/-- A function of its arguments, the bindings, the output and the world, whatever the locations are. -/
def AddedFunction.Blind (isBuiltin : String → Bool) (worlds : ω → ω → Prop) (f : AddedFunction ω) : Prop :=
  ∀ (place : Location → Location → Prop) (turned : String → Prop) (args args' : List Value) (pos pos' : Location)
    (s s' : State ω), List.Forall₂ (Value.Alike ⟨place, isBuiltin, turned⟩ s.arrays) args args' → place pos pos' →
    s.Alike ⟨place, isBuiltin, turned⟩ worlds s' →
    ResultsAlike ⟨place, isBuiltin, turned⟩ ((f.run args pos).run s).2.arrays ((f.run args pos).run s).1
        ((f.run args' pos').run s').1 ∧
      ((f.run args pos).run s).2.Alike ⟨place, isBuiltin, turned⟩ worlds ((f.run args' pos').run s').2 ∧
      s.Keeps ((f.run args pos).run s).2 ∧ s'.Keeps ((f.run args' pos').run s').2

/-- What is registered leaves the session alone. Worlds that are alike cannot be told apart by the
added functions and the sink. -/
structure Setup.Detached (setup : Setup ω) (worlds : ω → ω → Prop) : Prop where
  refl : ∀ w, worlds w w
  handlers : ∀ h ∈ setup.registry.handlers, ∀ notice, Watches worlds (h.run notice)
  rules : ∀ r ∈ setup.registry.rules, ∀ notice, Watches worlds (r.run notice)
  functions : ∀ f ∈ setup.registry.functions, f.Blind setup.isBuiltin worlds
  sink : ∀ text w w', worlds w w' →
    (setup.sink text w).1 = (setup.sink text w').1 ∧ worlds (setup.sink text w).2 (setup.sink text w').2

section
variable {worlds : ω → ω → Prop}

theorem watches_pure : Watches worlds (pure ()) := fun s => ⟨s.world, rfl, fun _ => ⟨id, id⟩⟩

theorem Watches.bind {m m' : Run ω Unit} (h : Watches worlds m) (h' : Watches worlds m') :
    Watches worlds (m >>= fun _ => m') := by
  intro s
  obtain ⟨w, hm, hw⟩ := h s
  obtain ⟨w', hm', hw'⟩ := h' { s with world := w }
  refine ⟨w', ?_, fun v => ⟨fun hv => (hw' v).1 ((hw v).1 hv), fun hv => (hw' v).2 ((hw v).2 hv)⟩⟩
  rw [run_bind, hm]
  exact hm'

theorem Watches.blame {m : Run ω Unit} (h : Watches worlds m) (cause : String → Cause)
    (pos : State ω → Option Location) : Watches worlds (blame cause pos m) := by
  intro s
  obtain ⟨w, hm, hw⟩ := h s
  refine ⟨w, ?_, hw⟩
  have hm : m s = (.ok (), { s with world := w }) := hm
  show JossLang.blame cause pos m s = _
  rw [JossLang.blame, hm]

theorem watches_runHandlers (notice : Notice) : ∀ hs : List (Handler ω),
    (∀ g ∈ hs, ∀ notice, Watches worlds (g.run notice)) → Watches worlds (runHandlers notice hs)
  | [], _ => watches_pure
  | g :: hs, h => by
    obtain ⟨hg, h⟩ := List.forall_mem_cons.mp h
    exact (hg notice).bind (watches_runHandlers notice hs h)

theorem watches_notify {setup : Setup ω} (h : ∀ g ∈ setup.registry.handlers, ∀ notice, Watches worlds (g.run notice))
    (notice : Notice) : Watches worlds (notify setup notice) :=
  (watches_runHandlers notice _ fun g hg => h g (List.mem_of_mem_filter hg)).blame _ _

theorem watches_runRules (notice : StepNotice) : ∀ rs : List (StepRule ω),
    (∀ r ∈ rs, ∀ notice, Watches worlds (r.run notice)) → Watches worlds (runRules notice rs)
  | [], _ => watches_pure
  | r :: rs, h => by
    obtain ⟨hr, h⟩ := List.forall_mem_cons.mp h
    rw [JossLang.runRules]
    split
    · exact (hr notice).bind (watches_runRules notice rs h)
    · exact watches_pure.bind (watches_runRules notice rs h)

theorem record_of_watches {setup : Setup ω} (h : ∀ r ∈ setup.registry.rules, ∀ notice, Watches worlds (r.run notice))
    (action : Action) (pos : Location) (s : State ω) :
    ∃ w, (record setup action pos).run s = (.ok (), { s.record setup.verbose action pos with world := w }) ∧
      ∀ v, (worlds s.world v → worlds w v) ∧ (worlds v s.world → worlds v w) :=
  (watches_runRules _ _ h).blame _ _ (s.record setup.verbose action pos)

variable {setup : Setup ω} (h : setup.Detached worlds)
include h

theorem Setup.Detached.notify (notice : Notice) : Watches worlds (notify setup notice) := watches_notify h.handlers notice

theorem Setup.Detached.record (action : Action) (pos : Location) (s : State ω) :
    ∃ w, (record setup action pos).run s = (.ok (), { s.record setup.verbose action pos with world := w }) ∧
      ∀ v, (worlds s.world v → worlds w v) ∧ (worlds v s.world → worlds v w) :=
  record_of_watches h.rules action pos s

end

/-! ## Comparisons -/

/-- What the two sessions are, how their worlds and programs are to be alike, which failures are
possible, and after which failures on either side the comparison stops. It stops too when bindings
tell that the right session has parted from the left one since there were so many arrays. -/
structure Comparison (ω : Type) where
  left : Setup ω
  right : Setup ω
  like : Likeness
  worlds : ω → ω → Prop
  programs : Program → Program → Prop
  possible : Failure → Prop
  excused : Failure → Prop
  excused' : Failure → Prop
  parted : Nat → Environment → Prop

namespace Comparison

variable (C : Comparison ω)

structure Between (s s' : State ω) : Prop extends State.Alike C.like C.worlds s s' where
  programs : C.programs s.program s'.program

structure Within (s s' : State ω) : Prop extends C.Between s s' where
  last : Option.Rel C.like.place s.log.lastPos? s'.log.lastPos?

def Failures (f f' : Failure) : Prop := f.Alike C.like.place f' ∧ C.possible f

inductive Outcome {α β : Type} (arrays : Nat) (P : Nat → α → β → Prop) :
    Except Failure α × State ω → Except Failure β × State ω → Prop where
  | ok {a : α} {b : β} {t t' : State ω} : arrays ≤ t.arrays → C.Within t t' → P t.arrays a b →
      Outcome arrays P (.ok a, t) (.ok b, t')
  | error {f f' : Failure} {t t' : State ω} : C.Within t t' → C.Failures f f' →
      Outcome arrays P (.error f, t) (.error f', t')
  | excused {f : Failure} {t : State ω} {r : Except Failure β × State ω} : C.excused f →
      Outcome arrays P (.error f, t) r
  | excused' {f : Failure} {t' : State ω} {r : Except Failure α × State ω} : C.excused' f →
      Outcome arrays P r (.error f, t')

/-- From states that are alike and have at least so many arrays, two computations come to results
that are alike. -/
def Agree {α β : Type} (arrays : Nat) (m : Run ω α) (m' : Run ω β) (P : Nat → α → β → Prop) : Prop :=
  ∀ s s', arrays ≤ s.arrays → C.Within s s' → C.Outcome arrays P (m.run s) (m'.run s')

abbrev Any {α β : Type} : Nat → α → β → Prop := fun _ _ _ => True

variable {C}

section
variable {α β α' β' : Type} {n k : Nat} {P : Nat → α → β → Prop} {Q : Nat → α' → β' → Prop}

theorem Outcome.mono {P' : Nat → α → β → Prop} {r : Except Failure α × State ω} {r' : Except Failure β × State ω}
    (h : C.Outcome k P r r') (hn : n ≤ k) (hP : ∀ m a b, k ≤ m → P m a b → P' m a b) : C.Outcome n P' r r' := by
  cases h with
  | ok hk ht ha => exact .ok (hn.trans hk) ht (hP _ _ _ hk ha)
  | error ht hf => exact .error ht hf
  | excused hf => exact .excused hf
  | excused' hf => exact .excused' hf

theorem Outcome.bind {m : Run ω α} {m' : Run ω β} {f : α → Run ω α'} {f' : β → Run ω β'} {s s' : State ω}
    (h : C.Outcome n P (m.run s) (m'.run s')) (hf : ∀ k, n ≤ k → ∀ a b, P k a b → C.Agree k (f a) (f' b) Q) :
    C.Outcome n Q ((m >>= f).run s) ((m' >>= f').run s') := by
  rw [run_bind, run_bind]
  generalize m.run s = r at h
  generalize m'.run s' = r' at h
  cases h with
  | ok hk ht ha => exact (hf _ hk _ _ ha _ _ le_rfl ht).mono hk fun _ _ _ _ => id
  | error ht he => exact .error ht he
  | excused he => exact .excused he
  | excused' he => exact .excused' he

theorem Agree.bind {m : Run ω α} {m' : Run ω β} {f : α → Run ω α'} {f' : β → Run ω β'} (h : C.Agree n m m' P)
    (hf : ∀ k, n ≤ k → ∀ a b, P k a b → C.Agree k (f a) (f' b) Q) : C.Agree n (m >>= f) (m' >>= f') Q :=
  fun s s' hs hw => (h s s' hs hw).bind hf

theorem agree_pure {a : α} {b : β} (h : ∀ k, n ≤ k → P k a b) : C.Agree n (pure a) (pure b) P :=
  fun _ _ hs hw => .ok hs hw (h _ hs)

theorem agree_get {f : State ω → Run ω α} {f' : State ω → Run ω β}
    (h : ∀ s s', n ≤ s.arrays → C.Within s s' → C.Outcome n P ((f s).run s) ((f' s').run s')) :
    C.Agree n (get >>= f) (get >>= f') P := h

theorem agree_modify {g g' : State ω → State ω}
    (h : ∀ s s', C.Within s s' → C.Within (g s) (g' s') ∧ s.arrays ≤ (g s).arrays) :
    C.Agree n (modify g) (modify g') Any := fun s s' hs hw =>
  .ok (hs.trans (h s s' hw).2) (h s s' hw).1 trivial

theorem agree_throw {f f' : Failure} (h : C.Failures f f') : C.Agree n (throw f : Run ω α) (throw f' : Run ω β) P :=
  fun _ _ _ hw => .error hw h

theorem agree_watches {m m' : Run ω Unit} (h : Watches C.worlds m) (h' : Watches C.worlds m') :
    C.Agree n m m' Any := by
  intro s s' hs hw
  obtain ⟨w, hm, hv⟩ := h s
  obtain ⟨w', hm', hv'⟩ := h' s'
  rw [hm, hm']
  refine .ok hs ⟨⟨⟨hw.environment, hw.typed, hw.marks, ?_⟩, hw.programs⟩, hw.last⟩ trivial
  exact (hv' w).2 ((hv s'.world).1 hw.worlds)

end

end Comparison

/-! ## Lawful comparisons -/

def Cause.Deliberate : Cause → Prop
  | unbound _ | functionAsScalar _ | wrongDimensions _ _ _ | missingElement _ _ | noSuchStep _ | noSuchPart _
  | tooFewArguments _ _ | tooManyArguments _ _ | wrongArguments _ _ _ | notAFunction _ => True
  | _ => False

def Step.Alike (place : Location → Location → Prop) (s s' : Step) : Prop :=
  s.number = s'.number ∧ s.command.Alike place s'.command

namespace Comparison

variable (C : Comparison ω)

inductive Goals : Except Failure (List Step) → Except Failure (List Step) → Prop where
  | found {ss ss' : List Step} : List.Forall₂ (Step.Alike C.like.place) ss ss' → Goals (.ok ss) (.ok ss')
  | missing {cause : Cause} {pos pos' : Location} : cause.Deliberate → C.like.place pos pos' →
      Goals (.error (.error (.runtime { cause := cause, pos := some pos })))
        (.error (.error (.runtime { cause := cause, pos := some pos' })))
  | excused {f : Failure} {r : Except Failure (List Step)} : C.excused f → Goals (.error f) r

def Tame {α : Type} (m : Run ω α) : Prop := ∀ n s, C.parted n s.environment → C.parted n (m.run s).2.environment

/-- Setting an element of a turned name parts the right session from the left one, if the name is no array there. -/
structure Parts : Prop where
  earlier : ∀ n k env, n ≤ k → C.parted k env → C.parted n env
  element : ∀ n (env : Environment) x is v, n ≤ env.tables.size → C.like.turned x →
    (∀ serial, env.binding? x ≠ some (.array serial)) →
    C.parted n (env.setElement x is v)
  bind : ∀ n (env : Environment) x b, C.parted n env → C.parted n (env.bind x b)
  terms : ∀ ts, ∀ m ∈ evalTerms C.right (applyAt C.right C.right.limits.calls) [] ts, C.Tame m
  command : ∀ d (c : Command), C.Tame (c.run C.right d)

structure Lawful : Prop extends C.Parts where
  left : C.left.Detached C.worlds
  right : C.right.Detached C.worlds
  functions : C.right.registry.functions = C.left.registry.functions
  limits : C.right.limits = C.left.limits
  elementary : C.right.elementary = C.left.elementary
  sink : ∀ text w w', C.worlds w w' →
    (C.left.sink text w).1 = (C.right.sink text w').1 ∧ C.worlds (C.left.sink text w).2 (C.right.sink text w').2
  isBuiltin : C.like.isBuiltin = C.left.isBuiltin
  deliberate : ∀ cause pos step, cause.Deliberate → C.possible (.error (.runtime ⟨cause, pos, step⟩))
  parse : ∀ e, C.possible (.error (.parse e))
  limit : C.possible .limit
  endless : C.possible .endless
  refusal : ∀ text w message, (C.left.sink text w).1 = .error message → C.possible (.foreign message)
  added : ∀ f ∈ C.left.registry.functions, ∀ args pos s failure t,
    (f.run args pos).run s = (.error failure, t) → C.possible failure
  goals : ∀ p p' goal pos pos', goal.Spelled → C.like.place pos pos' → C.programs p p' →
    C.Goals (p.stepsOf pos goal) (p'.stepsOf pos' goal)

variable {C} in
theorem parts_none (hparted : ∀ n env, ¬ C.parted n env) (hturned : ∀ x, ¬ C.like.turned x) : C.Parts where
  earlier _ _ _ _ h := absurd h (hparted _ _)
  element _ _ _ _ _ _ h := absurd h (hturned _)
  bind _ _ _ _ h := absurd h (hparted _ _)
  terms _ _ _ _ _ h := absurd h (hparted _ _)
  command _ _ _ _ h := absurd h (hparted _ _)

namespace Lawful

variable {C} (hC : C.Lawful) {α β : Type} {n : Nat} {P : Nat → α → β → Prop}
include hC

theorem isBuiltin_right : C.right.isBuiltin = C.like.isBuiltin := by
  rw [hC.isBuiltin]
  funext name
  simp only [Setup.isBuiltin, hC.functions]

theorem agree_limit : C.Agree n (throw .limit : Run ω α) (throw .limit : Run ω β) P := agree_throw ⟨.stray _, hC.limit⟩

theorem agree_endless : C.Agree n (throw .endless : Run ω α) (throw .endless : Run ω β) P :=
  agree_throw ⟨.stray _, hC.endless⟩

theorem agree_raise (cause : Cause) (hc : cause.Deliberate) {pos pos' : Option Location}
    (hp : Option.Rel C.like.place pos pos') : C.Agree n (raise cause pos : Run ω α) (raise cause pos' : Run ω β) P :=
  agree_throw ⟨.runtime cause none none hp, hC.deliberate _ _ _ hc⟩

end Lawful

end Comparison

end JossLang
