import JossLang.Proofs.SessionAgreement

/-!
# Errors of a session by itself

A session in which nothing is registered ends its lines with expected errors
only: a line that cannot be read, a cause that the language raises on purpose,
a limit, or a text that the sink does not take (`evaluateLines_expected`). What
its states hold can always be called, and every step that is listed is found.
-/

namespace JossLang

variable {ω : Type}

/-! ## Expected errors -/

def Setup.Refuses (setup : Setup ω) (message : String) : Prop := ∃ text w, (setup.sink text w).1 = .error message

/-- A parse error, a fault that the language raises on purpose, no room left, no end, or a text that the sink does
not take. -/
def Failure.Expected (setup : Setup ω) : Failure → Prop
  | .error (.parse _) => True
  | .error (.runtime e) => e.cause.Deliberate
  | .error (.stray (.plain _)) => False
  | .limit | .endless => True
  | .foreign message => setup.Refuses message

def LineError.Expected (setup : Setup ω) : LineError → Prop
  | .parse _ => True
  | .runtime e => e.cause.Deliberate ∨ e.cause = .limitReached ∨ ∃ message, setup.Refuses message ∧ e.cause = .internal message
  | .stray x => x = .endless

theorem Failure.Expected.ending {setup : Setup ω} {f : Failure} (h : f.Expected setup) (s : State ω) :
    (f.ending s).Expected setup := by
  cases f with
  | error e => cases e with
    | parse _ => trivial
    | runtime e => exact .inl h
    | stray x => cases x with
      | plain _ => exact h.elim
      | exhausted => exact .inr (.inl rfl)
      | endless => exact (rfl : Stray.endless = .endless)
  | foreign message => exact .inr (.inr ⟨message, h, rfl⟩)

/-! ## What a state holds -/

def Callable.Stands (isBuiltin : String → Bool) (env : Environment) : Callable → Prop
  | .builtin name => isBuiltin name
  | .array serial _ => serial < env.tables.size
  | .user _ _ => True

inductive Environment.Holds (isBuiltin : String → Bool) (env : Environment) : Value → Prop where
  | scalar (s : Scalar) : Holds isBuiltin env (.scalar s)
  | named {name : String} {v : Value} : env.get? isBuiltin name = some v → Holds isBuiltin env v
  | element {serial : Nat} {indices : List Index} {v : Value} : (indices, v) ∈ (env.table serial).entries →
      Holds isBuiltin env v

/-- What a state holds can be used: the functions can be called, which gives a value or fails in an
expected way, and the steps of a part are found. -/
structure State.InOrder (setup : Setup ω) (s : State ω) : Prop where
  stands : ∀ f, s.environment.Holds setup.isBuiltin (.function f) → f.Stands setup.isBuiltin s.environment
  called : ∀ f args, s.environment.Holds setup.isBuiltin (.function f) →
    (∀ a ∈ args, s.environment.Holds setup.isBuiltin a) → ∀ depth pos failure t,
      (applyAt setup depth f args pos).run s = (.error failure, t) → failure.Expected setup
  found : ∀ part, ∃ steps, s.program.partSteps part = .ok steps ∧
    steps.map (·.number) = (s.program.listed part).map (⟨part, ·⟩)

theorem Callable.Alike.stands {L : Likeness} {env : Environment} {f g : Callable} (h : f.Alike L env.tables.size g) :
    f.Stands L.isBuiltin env := by
  cases h with
  | builtin hb => exact hb
  | user => trivial
  | array _ hlt => exact hlt

theorem Environment.Alike.holds {L : Likeness} {env : Environment} (h : env.Alike L env) {v : Value}
    (hv : env.Holds L.isBuiltin v) : v.Alike L env.tables.size v := by
  cases hv with
  | scalar s => exact .scalar s
  | @named name _ hv =>
    have hr := h.get? name
    rw [hv] at hr
    cases hr with
    | some hr => exact hr
  | element hm => exact (List.forall₂_same.mp (h.tables _).entries _ hm).2

/-! ## Sessions -/

section
variable {setup : Setup ω} (hbare : setup.Bare)
include hbare

/-- A session compared with itself, where only what is expected is possible. -/
theorem Setup.Bare.lawful : (Comparison.same setup Eq Eq (fun _ => False) (Failure.Expected setup)).Lawful :=
  Comparison.same_lawful hbare.detached Comparison.same_parts (fun _ _ _ => id) (fun _ => trivial) trivial trivial
    (fun text w _ h => ⟨text, w, h⟩) (by rw [hbare.functions]; nofun)

theorem evaluateLine_expected (l : String) {s : State ω} (hs : Reachable setup s) {e : LineError}
    (he : (evaluateLine setup l s).1 = some e) : e.Expected setup := by
  have hline := (Comparison.evaluateLine_outcome hbare.lawful Comparison.same_stores l (fun _ _ => rfl)
    (hs.between hbare.detached fun _ => rfl)).resolve_left (Comparison.same_not_parted _ _)
  obtain ⟨f, t, hf, rfl⟩ := hline.possible Comparison.same_strict he
  exact hf.ending t

theorem evaluateLines_errors (ls : List String) {s : State ω} (hs : Reachable setup s) {e : LineError}
    (he : e ∈ (evaluateLines setup ls s).1) : e.Expected setup := by
  induction ls generalizing s with
  | nil => cases he
  | cons l ls ih =>
    rw [evaluateLines] at he
    rcases List.mem_append.mp he with he | he
    · exact evaluateLine_expected hbare l hs (Option.mem_toList.mp he)
    · exact ih (hs.evaluateLine l) he

theorem applyAt_expected {s : State ω} (hs : Reachable setup s) {f : Callable}
    (hf : s.environment.Holds setup.isBuiltin (.function f)) {args : List Value}
    (hargs : ∀ a ∈ args, s.environment.Holds setup.isBuiltin a) (depth : Nat) (pos : Location) {failure : Failure}
    {t : State ω} (hrun : (applyAt setup depth f args pos).run s = (.error failure, t)) : failure.Expected setup := by
  let C := Comparison.same setup Eq Eq (fun _ => False) (Failure.Expected setup)
  have hw : C.Between s s := hs.between hbare.detached fun _ => rfl
  have hf : f.Alike C.like s.arrays f := by
    cases hw.environment.holds hf with
    | function hf => exact hf
  have ho := Comparison.agree_applyAt hbare.lawful depth s.arrays f f args args pos pos hf
    (List.forall₂_same.mpr fun a ha => hw.environment.holds (hargs a ha)) rfl s s le_rfl
    ⟨hw, Comparison.optionRel_refl (fun _ => rfl) _⟩
  have ho : C.Outcome s.arrays (Value.Alike C.like) (.error failure, t) (.error failure, t) := hrun ▸ ho
  exact ho.possible Comparison.same_strict

/-- **Errors.** Whatever lines a session by itself is given, they end with expected errors only, and what
it then holds is in order. Every operator has an operation, which has a value for all operands. -/
theorem evaluateLines_expected (world : ω) (ls : List String) :
    (∀ e ∈ (evaluateLines setup ls (setup.start world)).1, e.Expected setup) ∧
    (evaluateLines setup ls (setup.start world)).2.InOrder setup ∧
    ∀ o : Operator, ∃ f, operations.lookup o.spelling = some f ∧ ∀ a b, ∃ r, f a b = .scalar r := by
  have hs : Reachable setup (evaluateLines setup ls (setup.start world)).2 := ⟨world, ls, rfl⟩
  refine ⟨fun e => evaluateLines_errors hbare ls ⟨world, [], rfl⟩, ?_, fun o => ?_⟩
  · have hw : (Comparison.same setup Eq Eq (fun _ => False) (Failure.Expected setup)).Between _ _ :=
      hs.between hbare.detached fun _ => rfl
    refine ⟨fun f hf => ?_, fun f args hf hargs depth pos _ _ hrun => ?_, fun part => ?_⟩
    · cases hw.environment.holds hf with
      | function hf => exact hf.stands
    · exact applyAt_expected hbare hs hf hargs depth pos hrun
    · have ho := hw.programs.ordered
      exact ⟨_, ho.partSteps_eq part, ho.numbers_steps part⟩
  · obtain ⟨f, hf, hmem⟩ := o.operation
    exact ⟨f, hf, operation_scalar hmem⟩

end

/-- A function that names itself, a part that is not there, and a line that cannot be read. -/
theorem evaluateLines_expected_mixed :
    let ls := ["Let f(x) = f.", "1.1 Do part 2.", "Type f(1), 1/0, a.", "Do part 1.", "Set a(1) = 5.", "Type a(2).", "Type (."]
    let r := evaluateLines Setup.plain ls (Setup.plain.start "")
    Setup.plain.Bare ∧ r.2.world = "<function f>\nInfinity\n" ∧
      r.1.map LineError.message = ["No such variable: a", "No such part: 2", "Missing array contents: a(2)",
        "Unexpected token in numeric expression: got '.' at column 7"] ∧
      (∀ e ∈ r.1, e.Expected Setup.plain) ∧ r.2.InOrder Setup.plain := by
  refine ⟨Setup.plain_bare, and_assoc.mp ⟨by decide +kernel, ?_⟩⟩
  obtain ⟨herrors, horder, -⟩ := evaluateLines_expected Setup.plain_bare "" _
  exact ⟨herrors, horder⟩

def Setup.full : Setup Unit := { sink := fun _ w => (.error "[Errno 28] No space left on device", w) }

/-- Nothing is registered, and yet a line ends with an internal error. -/
theorem evaluateLine_full :
    let r := evaluateLine Setup.full "Type 1." (Setup.full.start ())
    Setup.full.Bare ∧ r.1.map LineError.label = some "JossRuntimeError" ∧
      r.1.map LineError.message = some "Internal interpreter error: [Errno 28] No space left on device" := by
  exact ⟨⟨rfl, rfl, rfl⟩, by decide +kernel⟩

end JossLang
