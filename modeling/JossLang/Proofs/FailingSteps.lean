import JossLang.Proofs.StackTraces
import JossLang.Traceback

/-!
# Failing steps

An error is tied to the entry that was logged last, and a traceback shows for
its innermost frame what was logged last under that frame: the command that has
failed. The two are the same unless the command is a `Do` over a range that
has begun a step before (`evaluateLine_failingStep`): of such a `Do`, a later
term can still fail, and the error is then tied to a step that has succeeded.
-/

namespace JossLang

open Comparison (stepRunner)

variable {ω : Type}

/-! ## Failures without a place in the log -/

def Failure.Unplaced (f : Failure) : Prop := ∀ e, f = .error (.runtime e) → e.step = none

/-- The function keeps to the course of the program, and leaves it to the session to tie errors to entries. -/
structure AddedFunction.Modest (g : AddedFunction ω) : Prop where
  course : ∀ args pos (s : State ω), s.OnCourse ((g.run args pos).run s).2
  unplaced : ∀ args pos (s : State ω) f, ((g.run args pos).run s).1 = .error f → f.Unplaced

section
variable {setup : Setup ω} (hu : setup.Unhooked) (hmodest : ∀ g ∈ setup.registry.functions, g.Modest)
include hu hmodest

theorem Setup.Unhooked.handsOff : setup.HandsOff where
  handlers := by
    rw [hu.handlers]
    exact List.forall_mem_nil _
  rules := by
    rw [hu.rules]
    exact List.forall_mem_nil _
  functions g hg := (hmodest g hg).course

omit hu hmodest in
theorem unplaced_of_missing {p : Program} {pos : Location} {goal : Goal} {f : Failure} (h : p.stepsOf pos goal = .error f) :
    f.Unplaced := by
  cases goal with
  | step number =>
    rw [Program.stepsOf] at h
    split at h <;> cases h
    rintro _ ⟨⟩
    rfl
  | part part =>
    rw [Program.stepsOf] at h
    split at h
    · cases hsteps : p.partSteps part with
      | ok ss => simp [hsteps, Except.mapError] at h
      | error number =>
        rw [hsteps] at h
        cases h
        rintro _ ⟨⟩
    · cases h
      rintro _ ⟨⟩
      rfl

theorem Setup.Raises.unplaced {f : Failure} (h : setup.Raises f) : f.Unplaced := by
  cases h with
  | cause cause pos =>
    intro e he
    obtain rfl : { cause := cause, pos := pos } = e := by simpa using he
    rfl
  | limit => rintro _ ⟨⟩
  | endless => rintro _ ⟨⟩
  | refusal => rintro _ ⟨⟩
  | missing p pos goal h => exact unplaced_of_missing h
  | handler notice s h =>
    rw [hu.notify_run] at h
    cases h
  | rule action pos s h =>
    rw [hu.record_run] at h
    cases h
  | function hg args pos s h => exact (hmodest _ hg).unplaced args pos s _ h

end

/-! ## Steps that have been run -/

structure State.Advances (s t : State ω) : Prop where
  program : t.program = s.program
  frameCount : s.frameCount ≤ t.frameCount
  logged : s.log.nextIndex < t.log.nextIndex

theorem State.Advances.onCourse {s t u : State ω} (h : s.Advances t) (hu : t.OnCourse u) : s.Advances u where
  program := hu.program.trans h.program
  frameCount := hu.frameCount ▸ h.frameCount
  logged := hu.log ▸ h.logged

theorem State.Advances.trans {s t u : State ω} (h : s.Advances t) (h' : t.Advances u) : s.Advances u where
  program := h'.program.trans h.program
  frameCount := h.frameCount.trans h'.frameCount
  logged := h.logged.trans h'.logged

section
variable {setup : Setup ω} (hoff : setup.HandsOff)

theorem stepRunner_advances_succ {d : Nat}
    (hcommand : ∀ (c : Command) (s t : State ω), (c.run setup d).run s = (.ok (), t) → s.Advances t)
    {step : Step} {pos : Location} {s t : State ω} (h : (stepRunner setup (d + 1) step pos).run s = (.ok (), t)) :
    s.Advances t ∧ s.frameCount < t.frameCount := by
  rw [stepRunner_enter] at h
  cases hrun : (step.command.run setup d).run (s.enter step pos) with
  | mk result w =>
    rw [hrun] at h
    cases result with
    | error => cases h
    | ok =>
      obtain rfl : w.leave = t := congrArg Prod.snd h
      obtain ⟨hprogram, hcount, hlogged⟩ := hcommand _ _ _ hrun
      exact ⟨⟨hprogram, (Nat.le_succ _).trans hcount, hlogged⟩, hcount⟩

include hoff

theorem runWith_advances {r : StepRunner ω} (hr : ∀ step pos v w, (r step pos).run v = (.ok (), w) → v.Advances w)
    (c : Command) {s t : State ω} (hrun : (c.runWith setup r).run s = (.ok (), t)) : s.Advances t := by
  have ho : (Lockstep.within setup setup s.Advances (fun _ _ => True) fun _ _ => False).Outcome ((c.runWith setup r).run s)
      ((c.runWith setup r).run s) := by
    refine Lockstep.within_runWith (fun _ _ => State.Advances.onCourse) (fun _ _ _ _ => trivial) hoff (.refl _ setup)
      ⟨rfl, le_rfl, Nat.lt_succ_self _⟩ fun _ pos step _ _ => ?_
    rintro _ v ⟨rfl, hv⟩
    cases hstep : (r step pos).run v with
    | mk result w =>
      cases result with
      | error => exact .error ⟨rfl, trivial⟩
      | ok => exact .ok ⟨rfl, hv.trans (hr step pos v w hstep)⟩
  rw [hrun] at ho
  cases ho with
  | ok ht => exact ht.2

theorem command_advances (d : Nat) : ∀ (c : Command) (s t : State ω), (c.run setup d).run s = (.ok (), t) → s.Advances t := by
  induction d with
  | zero =>
    intro c s t hrun
    rw [Command.run_eq_runWith] at hrun
    refine runWith_advances hoff (fun step pos v w h => ?_) c hrun
    obtain ⟨frames, count, hlimit⟩ := Comparison.stepRunner_zero setup step pos v
    cases hlimit.symm.trans h
  | succ d ih =>
    intro c s t hrun
    rw [Command.run_eq_runWith] at hrun
    exact runWith_advances hoff (fun _ _ _ _ h => (stepRunner_advances_succ ih h).1) c hrun

theorem stepRunner_advances {d : Nat} {step : Step} {pos : Location} {s t : State ω}
    (h : (stepRunner setup d step pos).run s = (.ok (), t)) : s.Advances t ∧ s.frameCount < t.frameCount := by
  cases d with
  | zero =>
    obtain ⟨frames, count, hlimit⟩ := Comparison.stepRunner_zero setup step pos s
    cases hlimit.symm.trans h
  | succ d => exact stepRunner_advances_succ (command_advances hoff d) h

end

/-! ## Failing commands -/

structure State.Quiet (v t : State ω) : Prop where
  program : t.program = v.program
  log : t.log = v.log
  frameCount : t.frameCount = v.frameCount

theorem State.Quiet.onCourse {v s t : State ω} (h : v.Quiet s) (ht : s.OnCourse t) : v.Quiet t where
  program := ht.program.trans h.program
  log := ht.log.trans h.log
  frameCount := ht.frameCount.trans h.frameCount

def State.Since (v t : State ω) : Prop := v.Quiet t ∨ v.Advances t ∧ v.frameCount < t.frameCount

theorem State.Since.onCourse {v s t : State ω} (h : v.Since s) (ht : s.OnCourse t) : v.Since t := by
  rcases h with h | ⟨h, hcount⟩
  · exact .inl (h.onCourse ht)
  · exact .inr ⟨h.onCourse ht, ht.frameCount ▸ hcount⟩

theorem State.Since.advances {v s t : State ω} (h : v.Since s) (ht : s.Advances t) (hcount : s.frameCount < t.frameCount) :
    v.Since t := by
  rcases h with h | ⟨h, hlt⟩
  · refine .inr ⟨⟨ht.program.trans h.program, h.frameCount ▸ ht.frameCount, ?_⟩, h.frameCount ▸ hcount⟩
    rw [← h.log]
    exact ht.logged
  · exact .inr ⟨h.trans ht, hlt.trans hcount⟩

/-- Runs steps in the same way, but leaves out those that fail. -/
def skipping (r : StepRunner ω) : StepRunner ω := fun step pos s =>
  match (r step pos).run s with
  | (.ok _, t) => (.ok (), t)
  | (.error _, _) => (.ok (), s)

theorem skipping_eq (r : StepRunner ω) (step : Step) (pos : Location) (s : State ω) :
    (skipping r step pos).run s = match (r step pos).run s with
      | (.ok _, t) => (Except.ok (), t)
      | (.error _, _) => (.ok (), s) := rfl

theorem skipping_of_ok {r : StepRunner ω} {step : Step} {pos : Location} {s t : State ω} (h : (r step pos).run s = (.ok (), t)) :
    (skipping r step pos).run s = (.ok (), t) := by
  rw [skipping_eq, h]

theorem skipping_run (r : StepRunner ω) (step : Step) (pos : Location) (s : State ω) :
    ∃ t, (skipping r step pos).run s = (.ok (), t) ∧ (t = s ∨ (r step pos).run s = (.ok (), t)) := by
  rw [skipping_eq]
  cases (r step pos).run s with
  | mk result t =>
    cases result with
    | error => exact ⟨s, rfl, .inl rfl⟩
    | ok => exact ⟨t, rfl, .inr rfl⟩

namespace Lockstep

variable {α : Type} {setup : Setup ω} {I : State ω → Prop} {failed : Failure → State ω → Prop} {m : Run ω α} {s t : State ω}
  (h : (within setup setup I failed fun _ _ => False).Agree m m) (hs : I s)
include h hs

theorem Agree.of_ok {a : α} (hm : m.run s = (.ok a, t)) : I t := by
  have ho := h s s ⟨rfl, hs⟩
  rw [hm] at ho
  cases ho with
  | ok ht => exact ht.2

theorem Agree.of_error {f : Failure} (hm : m.run s = (.error f, t)) : failed f t := by
  have ho := h s s ⟨rfl, hs⟩
  rw [hm] at ho
  cases ho with
  | error ht => exact ht.2
  | excused ht => exact ht.elim

end Lockstep

section
variable {setup : Setup ω} (hu : setup.Unhooked) (hmodest : ∀ g ∈ setup.registry.functions, g.Modest)
include hu hmodest

theorem since_of_failsItself {c : Command} {d : Nat} {u t : State ω} {f : Failure}
    (h : (c.runWith setup (skipping (stepRunner setup d))).run u = (.error f, t)) :
    (u.record setup.verbose (.command c.verb.label) c.pos).Since t ∧ f.Unplaced := by
  have hoff := hu.handsOff hmodest
  have ho : (Lockstep.within setup setup (u.record setup.verbose (.command c.verb.label) c.pos).Since
      (fun f t => (u.record setup.verbose (.command c.verb.label) c.pos).Since t ∧ f.Unplaced) fun _ _ => False).Outcome
      ((c.runWith setup (skipping (stepRunner setup d))).run u) ((c.runWith setup (skipping (stepRunner setup d))).run u) := by
    refine Lockstep.within_runWith (fun _ _ => State.Since.onCourse) (fun _ _ ht hf => ⟨ht, hf.unplaced hu hmodest⟩) hoff
      (.refl _ setup) (.inl ⟨rfl, rfl, rfl⟩) fun _ pos step _ _ => ?_
    rintro _ v ⟨rfl, hv⟩
    obtain ⟨w, hw, rfl | hstep⟩ := skipping_run (stepRunner setup d) step pos v
    · rw [hw]
      exact .ok ⟨rfl, hv⟩
    · obtain ⟨hadvances, hcount⟩ := stepRunner_advances hoff hstep
      rw [hw]
      exact .ok ⟨rfl, hv.advances hadvances hcount⟩
  rw [h] at ho
  cases ho with
  | error ht => exact ht.2
  | excused ht => exact ht.elim

end

/-! ## Commands that fail before they run steps -/

def Succeeds (P : State ω → Prop) (m : Run ω Unit) : Prop := ∀ s, P s → ∃ t, m.run s = (.ok (), t) ∧ P t

section
variable {P : State ω → Prop}

theorem succeeds_pure : Succeeds P (pure ()) := fun s hs => ⟨s, rfl, hs⟩

theorem Succeeds.bind {m n : Run ω Unit} (h : Succeeds P m) (h' : Succeeds P n) : Succeeds P (m >>= fun _ => n) := by
  intro s hs
  obtain ⟨t, hm, ht⟩ := h s hs
  rw [run_bind, hm]
  exact h' t ht

theorem succeeds_repeatRun {m : Run ω Unit} (h : Succeeds P m) : ∀ n, Succeeds P (repeatRun m n)
  | 0 => succeeds_pure
  | n + 1 => h.bind (succeeds_repeatRun h n)

theorem succeeds_runSteps {r : StepRunner ω} {pos : Location} (h : ∀ step, Succeeds P (r step pos)) :
    ∀ steps, Succeeds P (runSteps r pos steps)
  | [] => succeeds_pure
  | step :: steps => (h step).bind (succeeds_runSteps h steps)

theorem succeeds_runGoal {r : StepRunner ω} {goal : Goal} {pos : Location} (h : ∀ step, Succeeds P (r step pos))
    (hsteps : ∀ s, P s → ∃ steps, s.program.stepsOf pos goal = .ok steps) : Succeeds P (runGoal r goal pos) := by
  intro s hs
  obtain ⟨steps, hgoal⟩ := hsteps s hs
  rw [Comparison.runGoal_run, hgoal]
  exact succeeds_runSteps h steps s hs

end

section
variable {setup : Setup ω} (hoff : setup.HandsOff)
include hoff

theorem State.quiet_performs (v : State ω) :
    (Lockstep.within setup setup v.Quiet (fun _ => v.Quiet) fun _ _ => False).Performs :=
  Lockstep.within_performs (fun _ _ => State.Quiet.onCourse) (fun _ _ ht _ => ht) hoff (.refl _ setup)

theorem succeeds_skipping (d : Nat) (p : Program) (step : Step) (pos : Location) :
    Succeeds (fun s => s.program = p) (skipping (stepRunner setup d) step pos) := by
  intro s hs
  obtain ⟨t, ht, rfl | hstep⟩ := skipping_run (stepRunner setup d) step pos s
  · exact ⟨t, ht, hs⟩
  · exact ⟨t, ht, (stepRunner_advances hoff hstep).1.program.trans hs⟩

/-- Once the count is known, and its rounds succeed, there can only be no end. -/
theorem times_quiet {v s t : State ω} {f : Failure} (hendless : f ≠ .endless) (hs : v.Quiet s) {target : Run ω Unit}
    (htarget : Succeeds (fun s => s.program = v.program) target) {count : Expr}
    (h : ((Loop.times count).run setup target).run s = (.error f, t)) : v.Quiet t := by
  have hagree := Lockstep.evaluate_agree (State.quiet_performs hoff v).toLawful count
  rw [Loop.run, run_bind] at h
  cases hcount : (evaluate setup count).run s with
  | mk result w =>
    rw [hcount] at h
    cases result with
    | error f' =>
      cases h
      exact hagree.of_error hs hcount
    | ok x =>
      have hw := (hagree.of_ok hs hcount).program
      dsimp only at h
      split at h
      · obtain ⟨y, hy, -⟩ := succeeds_repeatRun htarget _ w hw
        cases hy.symm.trans h
      · obtain ⟨y, hy, -⟩ := succeeds_repeatRun htarget setup.limits.values w hw
        rw [run_bind, hy] at h
        cases h
        exact absurd rfl hendless

/-- A verb fails before it runs a step, unless it is a `Do` over a range. -/
theorem verb_quiet_or_each {d : Nat} {v s t : State ω} {f : Failure} (hendless : f ≠ .endless) (hs : v.Quiet s) (verb : Verb)
    (h : (verb.run setup (skipping (stepRunner setup d))).run s = (.error f, t)) :
    v.Quiet t ∨ ∃ pos goal x range, verb = .perform pos goal (.each x range) := by
  have hC := State.quiet_performs hoff v
  cases verb with
  | perform pos goal loop =>
    cases hgoal : v.program.stepsOf pos goal with
    | error f' =>
      refine .inl ((Lockstep.agree_verb hC (.perform pos goal loop) ?_).of_error hs h)
      rintro _ _ _ hv _ w steps ⟨rfl, hw⟩ hsteps
      cases hv
      rw [hw.program, hgoal] at hsteps
      cases hsteps
    | ok steps =>
      have hrun : Succeeds (fun s => s.program = v.program) (runGoal (skipping (stepRunner setup d)) goal pos) :=
        succeeds_runGoal (fun step => succeeds_skipping hoff d v.program step pos) fun s hs => ⟨steps, by rw [hs, hgoal]⟩
      cases loop with
      | once =>
        obtain ⟨w, hw, -⟩ := hrun s hs.program
        cases hw.symm.trans h
      | times count => exact .inl (times_quiet hoff hendless hs hrun h)
      | each x range => exact .inr ⟨pos, goal, x, range, rfl⟩
  | blank | type | set | define =>
    refine .inl ((Lockstep.agree_verb hC _ fun _ _ _ hv => ?_).of_error hs h)
    cases hv

end

section
variable {setup : Setup ω} (hu : setup.Unhooked) (hmodest : ∀ g ∈ setup.registry.functions, g.Modest)
include hu hmodest

theorem quiet_or_each {c : Command} {d : Nat} {u t : State ω} {f : Failure} (hendless : f ≠ .endless)
    (h : (c.runWith setup (skipping (stepRunner setup d))).run u = (.error f, t)) :
    (u.record setup.verbose (.command c.verb.label) c.pos).Quiet t ∨
      ∃ pos goal x range, c.verb = .perform pos goal (.each x range) := by
  have hoff := hu.handsOff hmodest
  rw [Command.runWith_unhooked hu] at h
  generalize u.record setup.verbose (.command c.verb.label) c.pos = v at h ⊢
  have hquiet : v.Quiet v := ⟨rfl, rfl, rfl⟩
  have hagree := Lockstep.agree_guardHolds (State.quiet_performs hoff v) c.guard
  rcases hguard : (guardHolds setup c.guard).run v with ⟨f' | (_ | _), w⟩
  · rw [hguard] at h
    cases h
    exact .inl (hagree.of_error hquiet hguard)
  · rw [hguard] at h
    cases h
  · rw [hguard] at h
    exact verb_quiet_or_each hoff hendless (hagree.of_ok hquiet hguard) c.verb h

end

/-! ## Lines that fail -/

theorem Log.last_index {log : Log} {i : Nat} (h : log.nextIndex = i + 1) : log.last?.map (·.index) = some i := by
  rw [nextIndex] at h
  cases hlast : log.last? with
  | none => simp [hlast] at h
  | some e =>
    rw [hlast] at h
    exact congrArg some (Nat.succ.inj h)

theorem State.trace_last {s : State ω} {f : Frame} {fs : List Frame} (hf : s.frames = f :: fs) {e : Entry}
    (he : s.log.lastOfFrame? f.number = some e) : s.trace.getLast? = some ⟨f.activity, e.pos, some e⟩ := by
  rw [State.trace, hf, List.reverse_cons, List.map_append, List.map_singleton, List.getLast?_concat, he]

theorem Failure.Unplaced.step {f : Failure} (hf : f.Unplaced) {s : State ω} {e : RuntimeError} (h : f.ending s = .runtime e) :
    e.step = s.log.last?.map (·.index) := by
  cases f with
  | error e' =>
    cases e' with
    | parse _ => cases h
    | runtime e' =>
      obtain rfl := LineError.runtime.inj h
      simp [hf e' rfl]
    | stray x => cases x with
      | endless => cases h
      | _ =>
        obtain rfl := LineError.runtime.inj h
        rfl
  | foreign _ =>
    obtain rfl := LineError.runtime.inj h
    rfl

/-- Without handlers and rules, a line that ends with a runtime error is a command that has failed. -/
theorem Setup.Unhooked.command_failed {setup : Setup ω} (hu : setup.Unhooked) {text : String} {s t : State ω} {e : RuntimeError}
    (h : evaluateLine setup text s = (some (.runtime e), t)) :
    ∃ line f, Line.parse ⟨setup.file, (s.lineNumber + 1 : Nat), text.toList⟩ = .ok (.direct line) ∧
      (line.run setup setup.limits.steps).run { s with lineNumber := s.lineNumber + 1, frames := [.top] } = (.error f, t) ∧
      f.ending t = .runtime e := by
  rw [evaluateLine] at h
  dsimp only at h
  rw [runText_run, hu.notify_run] at h
  dsimp only at h
  cases hread : Line.parse ⟨setup.file, (s.lineNumber + 1 : Nat), text.toList⟩ with
  | error e' =>
    rw [hread, carryOut] at h
    dsimp only at h
    rw [hu.settle_eq] at h
    cases h
  | ok l =>
    rw [hread, carryOut] at h
    cases l with
    | stored pos number c =>
      rw [Line.run, run_bind, hu.record_run] at h
      cases h
    | direct line =>
      rw [Line.run] at h
      cases hrun : (line.run setup setup.limits.steps).run { s with lineNumber := s.lineNumber + 1, frames := [.top] } with
      | mk result v =>
        rw [hrun] at h
        cases result with
        | ok => cases h
        | error f =>
          dsimp only at h
          rw [hu.settle_eq] at h
          obtain ⟨he, rfl⟩ : f.ending v = .runtime e ∧ v = t := by simpa using h
          exact ⟨line, f, rfl, hrun, he⟩

/-- **Failing steps.** The error of a line is tied to the entry that the traceback shows for its innermost
frame, which is that of the command that has failed by itself, unless this is a `Do` over a range that has
begun a step before. -/
theorem evaluateLine_failingStep {setup : Setup ω} (hu : setup.Unhooked) (hmodest : ∀ g ∈ setup.registry.functions, g.Modest)
    {s : State ω} (hs : Reachable setup s) {text : String} {e : RuntimeError} {t : State ω}
    (he : evaluateLine setup text s = (some (.runtime e), t)) (hlimit : e.cause ≠ .limitReached) :
    ∃ line c cs f d u own, Line.parse ⟨setup.file, (s.lineNumber + 1 : Nat), text.toList⟩ = .ok (.direct line) ∧
      t.Stacked s.program line (c :: cs) (c :: cs) ∧ u.Begins s.program line c cs ∧ c.command.FailsItself setup d f u t ∧
      f.ending t = .runtime e ∧ own.index = c.index ∧ t.trace.getLast? = some ⟨c.frame.activity, some c.command.pos, some own⟩ ∧
      (e.step = some own.index ↔
        ¬ (u.frameCount < t.frameCount ∧ ∃ pos goal x range, c.command.verb = .perform pos goal (.each x range))) := by
  have hoff := hu.handsOff hmodest
  obtain ⟨line, f, hread, hrun, hending⟩ := hu.command_failed he
  have htop : State.Begins { s with lineNumber := s.lineNumber + 1, frames := [.top] } s.program line
      ⟨.top, line, s.log.nextIndex⟩ [] := .top rfl (hs.counted hoff)
  obtain ⟨c, cs, hstacked, -, d, u, hbegins, hfails⟩ := command_leftOver hoff _ _ _ _ t f htop hrun trivial
  have hf : f ≠ .limit := by
    rintro rfl
    obtain rfl := LineError.runtime.inj hending
    exact hlimit rfl
  have hendless : f ≠ .endless := by
    rintro rfl
    cases hending
  have hstacked := hstacked.resolve_right fun h => hf h.1.2
  -- the command fails in the same way when its failing steps are left out
  have hskip := hfails.2.resolve_left (fun h => hf h.2) (skipping (stepRunner setup d)) fun _ _ _ _ => skipping_of_ok
  obtain ⟨hsince, hunplaced⟩ := since_of_failsItself hu hmodest hskip
  have hstep := hunplaced.step hending
  obtain ⟨own, hown, hindex, -, hpos⟩ := hstacked.shows c List.mem_cons_self
  refine ⟨line, c, cs, f, d, u, own, hread, hstacked, hbegins, hfails, hending, hindex, ?_, ?_⟩
  · rw [State.trace_last hstacked.frames hown, hpos]
  · have hnext : own.index = u.log.nextIndex := hindex.trans hbegins.index
    rcases hsince with hquiet | ⟨hadvances, hcount⟩
    · -- the command's own entry is the last one
      have hcount : t.frameCount = u.frameCount := hquiet.frameCount
      have hlast : t.log.last?.map (·.index) = some own.index := by
        rw [hquiet.log, hnext]
        rfl
      rw [hstep, hlast, hcount]
      simp
    · -- the last entry is that of a step, so the command had another term to evaluate
      have hlogged : u.log.nextIndex + 1 < t.log.nextIndex := hadvances.logged
      have hlast : t.log.last?.map (·.index) = some (t.log.nextIndex - 1) := Log.last_index (by omega)
      have heach := (quiet_or_each hu hmodest hendless hskip).resolve_left fun hquiet => hcount.ne' hquiet.frameCount
      have hcount : u.frameCount < t.frameCount := hcount
      rw [hstep, hlast, hnext]
      simp only [Option.some.injEq, hcount, heach, true_and, not_true_eq_false, iff_false]
      omega

/-- The second round of a loop fails in the step that it runs. -/
theorem evaluateLine_failingStep_second :
    let s := (evaluateLines Setup.plain ["1.1 Do step 2.1 for i = 1, 2.", "2.1 Type i, a(i).", "Set a(1) = 5."]
      (Setup.plain.start "")).2
    let r := evaluateLine Setup.plain "Do step 1.1." s
    Setup.plain.Unhooked ∧ (∀ g ∈ Setup.plain.registry.functions, g.Modest) ∧ Reachable Setup.plain s ∧
      r.1.map LineError.message = some "Missing array contents: a(2)" ∧ r.1.bind LineError.step = some 7 ∧
      ∃ e line c cs f d u own, r.1 = some (.runtime e) ∧ e.cause ≠ .limitReached ∧
        Line.parse ⟨Setup.plain.file, (s.lineNumber + 1 : Nat), "Do step 1.1.".toList⟩ = .ok (.direct line) ∧
        r.2.Stacked s.program line (c :: cs) (c :: cs) ∧ u.Begins s.program line c cs ∧
        c.command.FailsItself Setup.plain d f u r.2 ∧ f.ending r.2 = .runtime e ∧ own.index = c.index ∧
        r.2.trace.getLast? = some ⟨c.frame.activity, some c.command.pos, some own⟩ ∧
        (e.step = some own.index ↔
          ¬ (u.frameCount < r.2.frameCount ∧ ∃ pos goal x range, c.command.verb = .perform pos goal (.each x range))) := by
  intro s r
  have hmodest : ∀ g ∈ Setup.plain.registry.functions, g.Modest := List.forall_mem_nil _
  have hs : Reachable Setup.plain s := ⟨"", _, rfl⟩
  obtain ⟨hmessage, hstep⟩ : r.1.map LineError.message = some "Missing array contents: a(2)" ∧
      r.1.bind LineError.step = some 7 := by decide +kernel
  refine ⟨Setup.plain_bare.unhooked, hmodest, hs, hmessage, hstep, ?_⟩
  rcases herror : r.1 with _ | (e | e | x)
  · rw [herror] at hstep
    cases hstep
  · rw [herror] at hstep
    cases hstep
  · have hlimit : e.cause ≠ .limitReached := by
      intro hcause
      rw [herror, Option.map_some, LineError.message, RuntimeError.message, hcause] at hmessage
      exact absurd hmessage (by decide)
    obtain ⟨line, c, cs, f, d, u, own, h⟩ :=
      evaluateLine_failingStep Setup.plain_bare.unhooked hmodest hs (Prod.ext herror rfl) hlimit
    exact ⟨e, line, c, cs, f, d, u, own, rfl, hlimit, h⟩
  · rw [herror] at hstep
    cases hstep

/-- When a later term of a range fails, the error is tied to a step that has succeeded. -/
theorem failingStep_laterTerm :
    let s := (evaluateLines Setup.plain ["1.1 Type i."] (Setup.plain.start "")).2
    let r := evaluateLine Setup.plain "Do part 1 for i = 1, y." s
    Setup.plain.Unhooked ∧ Setup.plain.registry.functions = [] ∧ Reachable Setup.plain s ∧
      r.1.map LineError.message = some "No such variable: y" ∧ r.1.bind LineError.step = some 3 ∧
      r.2.trace.map (fun f => (f.activity.label, f.entry.map (·.index))) = [("<top-level>", some 2)] := by
  exact ⟨Setup.plain_bare.unhooked, rfl, ⟨"", _, rfl⟩, by decide +kernel⟩

end JossLang
