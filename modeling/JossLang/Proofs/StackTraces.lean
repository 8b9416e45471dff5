import JossLang.Proofs.LineRuns
import JossLang.Proofs.StackDiscipline

/-!
# Stacks that are left over

A line that fails leaves the frames of the calls that were under way: each of
them was ended by the failure, and the innermost one failed by itself and not
in a step that it ran (`LeftOver`). At the limit of steps inside one another
the step that there is no room for may leave a frame as well, which nothing
was logged under. With that, `evaluateLine_stack` says where the frames of a
session stand at any time.
-/

namespace JossLang

open Comparison (stepRunner)

variable {ω : Type}

/-! ## Commands that fail -/

/-- The command ends with a failure of its own: it would end so whatever was done by the steps that fail in
it. A session at its limit runs no further step. -/
def Command.FailsItself (setup : Setup ω) (d : Nat) (c : Command) (f : Failure) (u t : State ω) : Prop :=
  (c.run setup d).run u = (.error f, t) ∧
    (d = 0 ∧ f = .limit ∨ ∀ r : StepRunner ω,
      (∀ step pos v w, (stepRunner setup d step pos).run v = (.ok (), w) → (r step pos).run v = (.ok (), w)) →
        (c.runWith setup r).run u = (.error f, t))

/-- Each of the calls was begun on top of those further out, and was ended by the failure. -/
def Stopped (setup : Setup ω) (p : Program) (line : Command) (f : Failure) (t : State ω) : List Call → Prop
  | [] => True
  | c :: cs =>
    (∃ d u, u.Begins p line c cs ∧ (c.command.run setup d).run u = (.error f, t)) ∧ Stopped setup p line f t cs

/-- The frames are those of the calls, which have all been logged. At a limit there may be one more on top, of a step
that was not. -/
def State.StackedUpTo (t : State ω) (setup : Setup ω) (p : Program) (line : Command) (f : Failure) (calls : List Call) : Prop :=
  t.Stacked p line calls calls ∨ (setup.limits.framed ∧ f = .limit) ∧ ∃ x, t.Stacked p line (x :: calls) calls

structure LeftOver (setup : Setup ω) (p : Program) (line : Command) (f : Failure) (t : State ω) (c : Call) (cs : List Call) :
    Prop where
  stacked : t.StackedUpTo setup p line f (c :: cs)
  stopped : Stopped setup p line f t (c :: cs)
  innermost : ∃ d u, u.Begins p line c cs ∧ c.command.FailsItself setup d f u t

section
variable {setup : Setup ω} {p : Program} {line : Command} (hoff : setup.HandsOff)
include hoff

theorem stepRunner_stacked {d : Nat} {c : Call} {cs : List Call} {s t : State ω} (hs : s.Stacked p line (c :: cs) (c :: cs))
    {pos : Location} {step : Step} (ht : p.Targets c.command pos step) (hrun : (stepRunner setup d step pos).run s = (.ok (), t)) :
    t.Stacked p line (c :: cs) (c :: cs) := by
  cases d with
  | zero =>
    obtain ⟨frames, count, hlimit⟩ := Comparison.stepRunner_zero setup step pos s
    cases hlimit.symm.trans hrun
  | succ d =>
    have ho := stepRunner_agree_succ (command_stacked hoff (fun _ => .refl _ setup) d) hs ht
    rw [hrun] at ho
    cases ho with
    | ok ht => exact ht.2

theorem failsItself_of_steps {d : Nat} {c : Call} {cs : List Call} {u t : State ω} {f : Failure} (hu : u.Begins p line c cs)
    (hrun : (c.command.run setup d).run u = (.error f, t)) (hsteps : ∀ s pos step, s.Stacked p line (c :: cs) (c :: cs) →
      p.Targets c.command pos step → (stepRunner setup d step pos).run s ≠ (.error f, t)) :
    t.Stacked p line (c :: cs) (c :: cs) ∧ c.command.FailsItself setup d f u t := by
  let inStep : Failure → State ω → Prop := fun f t => ∃ s pos step, s.Stacked p line (c :: cs) (c :: cs) ∧
    p.Targets c.command pos step ∧ (stepRunner setup d step pos).run s = (.error f, t)
  -- in lockstep with any other way to run the steps, those that fail are excused
  have houtcome : ∀ r : StepRunner ω,
      (∀ step pos v w, (stepRunner setup d step pos).run v = (.ok (), w) → (r step pos).run v = (.ok (), w)) →
      (c.command.runWith setup r).run u = (.error f, t) ∧ t.Stacked p line (c :: cs) (c :: cs) := by
    intro r hr
    have ho : (Lockstep.within setup setup (·.Stacked p line (c :: cs) (c :: cs))
        (fun _ t => t.Stacked p line (c :: cs) (c :: cs)) inStep).Outcome
        ((c.command.runWith setup (stepRunner setup d)).run u) ((c.command.runWith setup r).run u) := by
      refine Lockstep.within_runWith (fun _ _ => State.Stacked.onCourse) (fun _ _ ht _ => ht) hoff (.refl _ setup)
        (hu.record _) fun s pos step hs ht => ?_
      rintro _ v ⟨rfl, hv⟩
      have ht : p.Targets c.command pos step := hs.program ▸ ht
      cases hstep : (stepRunner setup d step pos).run v with
      | mk result w =>
        cases result with
        | ok =>
          rw [hr step pos v w hstep]
          exact .ok ⟨rfl, stepRunner_stacked hoff hv ht hstep⟩
        | error f => exact .excused ⟨v, pos, step, hv, ht, hstep⟩
    rw [← Command.run_eq_runWith, hrun] at ho
    generalize (c.command.runWith setup r).run u = r' at ho ⊢
    cases ho with
    | error ht => exact ⟨by rw [ht.1], ht.2⟩
    | excused hin =>
      obtain ⟨s, pos, step, hs, ht, hstep⟩ := hin
      exact absurd hstep (hsteps s pos step hs ht)
  exact ⟨(houtcome _ fun _ _ _ _ h => h).2, hrun, .inr fun r hr => (houtcome r hr).1⟩

theorem leftOver_or_step {d : Nat} {c : Call} {cs : List Call} {u t : State ω} {f : Failure} (hu : u.Begins p line c cs)
    (hrun : (c.command.run setup d).run u = (.error f, t)) (hcs : Stopped setup p line f t cs) :
    LeftOver setup p line f t c cs ∨ ∃ n pos step, ∃ s : State ω, d = n + 1 ∧ s.Stacked p line (c :: cs) (c :: cs) ∧
      p.Targets c.command pos step ∧ (step.command.run setup n).run (s.enter step pos) = (.error f, t) := by
  have hstopped : Stopped setup p line f t (c :: cs) := ⟨⟨d, u, hu, hrun⟩, hcs⟩
  by_cases hsteps : ∀ s pos step, s.Stacked p line (c :: cs) (c :: cs) → p.Targets c.command pos step →
      (stepRunner setup d step pos).run s ≠ (.error f, t)
  · obtain ⟨ht, hfails⟩ := failsItself_of_steps hoff hu hrun hsteps
    exact .inl ⟨.inl ht, hstopped, d, u, hu, hfails⟩
  · push Not at hsteps
    obtain ⟨s, pos, step, hs, ht, hstep⟩ := hsteps
    cases d with
    | zero =>
      rw [stepRunner] at hstep
      split at hstep
      · next hframed =>
        -- at the limit the step has a frame, and that is all
        obtain ⟨rfl, rfl⟩ : Failure.limit = f ∧ s.enter step pos = t := Prod.mk.inj hstep |>.imp_left Except.error.inj
        exact .inl ⟨.inr ⟨⟨hframed, rfl⟩, _, (hs.enter ht).toStacked⟩, hstopped, 0, u, hu, hrun, .inl ⟨rfl, rfl⟩⟩
      · obtain ⟨rfl, rfl⟩ : Failure.limit = f ∧ s = t := Prod.mk.inj hstep |>.imp_left Except.error.inj
        exact .inl ⟨.inl hs, hstopped, 0, u, hu, hrun, .inl ⟨rfl, rfl⟩⟩
    | succ n =>
      refine .inr ⟨n, pos, step, s, rfl, hs, ht, ?_⟩
      rw [stepRunner_enter] at hstep
      generalize (step.command.run setup n).run (s.enter step pos) = r at hstep ⊢
      rcases r with ⟨_ | _, v⟩
      · exact hstep
      · cases hstep

/-- **Failures.** A command that fails leaves its frame over, and those of the steps that were under way on
top of it. -/
theorem command_leftOver (d : Nat) : ∀ (c : Call) (cs : List Call) (u t : State ω) (f : Failure), u.Begins p line c cs →
    (c.command.run setup d).run u = (.error f, t) → Stopped setup p line f t cs → ∃ c' cs', LeftOver setup p line f t c' cs' := by
  induction d with
  | zero =>
    intro c cs u t f hu hrun hcs
    rcases leftOver_or_step hoff hu hrun hcs with h | ⟨n, pos, step, s, hd, -⟩
    · exact ⟨c, cs, h⟩
    · cases hd
  | succ d ih =>
    intro c cs u t f hu hrun hcs
    rcases leftOver_or_step hoff hu hrun hcs with h | ⟨n, pos, step, s, hd, hs, ht, hstep⟩
    · exact ⟨c, cs, h⟩
    · -- the failure is handed on to the step, which is one deeper
      obtain rfl := Nat.succ.inj hd
      exact ih _ (c :: cs) (s.enter step pos) t f (hs.enter ht) hstep ⟨⟨d + 1, u, hu, hrun⟩, hcs⟩

end

/-! ## Lines -/

/-- While a line runs that is read in this way, the frames are in order: either there is that of the session
alone, or the line is a command, and the frames are those of the calls under way for it, which have all been logged. -/
def State.StackInOrder (p : Program) (read : Except ParseError Line) (s : State ω) : Prop :=
  s.frames = [.top] ∨ ∃ line calls, read = .ok (.direct line) ∧ s.Stacked p line calls calls

inductive LineEnd (setup : Setup ω) (read : Except ParseError Line) (s : State ω) : Except Failure Unit × State ω → Prop where
  | done {t : State ω} : t.frames = [.top] → 0 < t.frameCount → LineEnd setup read s (.ok (), t)
  | idle {f : Failure} {t : State ω} : t.frames = [.top] → 0 < t.frameCount →
      (∀ line, read = .ok (.direct line) → t.log = s.log) → LineEnd setup read s (.error f, t)
  | stopped {f : Failure} {t : State ω} {line : Command} {c : Call} {cs : List Call} : read = .ok (.direct line) →
      LeftOver setup s.program line f t c cs → LineEnd setup read s (.error f, t)

section
variable {setup setup' : Setup ω} {p : Program} {read : Except ParseError Line} (hoff : setup.HandsOff)
  (hsame : setup.SameWhere (State.StackInOrder p read) setup')

include hoff hsame

theorem carryOut_end {s : State ω} (hp : s.program = p) (hs : s.frames = [.top]) (hcount : 0 < s.frameCount) :
    carryOut setup' read s = carryOut setup read s ∧ LineEnd setup read s (carryOut setup read s) := by
  cases read with
  | error e => exact ⟨rfl, .idle hs hcount (by rintro _ ⟨⟩)⟩
  | ok l =>
    cases l with
    | direct line =>
      have hlimits := hsame.limits
      have hsame : ∀ calls, setup.SameWhere (·.Stacked s.program line calls calls) setup' := fun calls =>
        hsame.mono fun v hv => .inr ⟨line, calls, rfl, hp ▸ hv⟩
      -- a direct command begins with the top frame alone, whatever its calls do above it
      have htop : s.Begins s.program line ⟨.top, line, s.log.nextIndex⟩ [] := .top hs hcount
      have ho := command_stacked hoff hsame setup.limits.steps _ _ s htop
      have hfailed := fun t f h => command_leftOver hoff setup.limits.steps _ _ s t f htop h trivial
      rw [carryOut, carryOut, Line.run, Line.run, hlimits]
      dsimp only at ho hfailed
      generalize (line.run setup setup.limits.steps).run s = r at ho hfailed ⊢
      generalize (line.run setup' setup.limits.steps).run s = r' at ho ⊢
      cases ho with
      | ok ht =>
        have hpos := ht.2.counted _ List.mem_cons_self
        exact ⟨by rw [ht.1], .done ht.2.frames hpos⟩
      | error ht =>
        obtain ⟨c, cs, h⟩ := hfailed _ _ rfl
        exact ⟨by rw [ht.1], .stopped rfl h⟩
      | excused ht => exact ht.elim
    | stored pos number c =>
      obtain ⟨heq, w, hw⟩ := record_same hoff hsame (.stored number) pos (s := s) (.inl hs)
      rw [carryOut, carryOut, Line.run, Line.run, run_bind, run_bind, heq]
      generalize (record setup (.stored number) pos).run s = r at hw
      obtain ⟨f | _, t⟩ := r
      · obtain rfl : t = { s.record setup.verbose (.stored number) pos with world := w } := hw
        exact ⟨rfl, .idle hs hcount (by rintro _ ⟨⟩)⟩
      · obtain rfl : t = { s.record setup.verbose (.stored number) pos with world := w } := hw
        exact ⟨rfl, .done hs hcount⟩

theorem runText_end {s : State ω} (hp : s.program = p) (hs : s.frames = [.top]) (hcount : 0 < s.frameCount) (text : String)
    (hread : Line.parse ⟨setup.file, s.lineNumber, text.toList⟩ = read) :
    (runText setup' text).run s = (runText setup text).run s ∧ LineEnd setup read s ((runText setup text).run s) := by
  obtain ⟨w, hw⟩ := worldOnly_notify hoff (.lineStart text) s
  rw [runText_run, runText_run, hsame.handlers (.lineStart text) s (.inl hs)]
  generalize (notify setup (.lineStart text)).run s = r at hw
  obtain ⟨f | _, t⟩ := r
  · obtain rfl : t = { s with world := w } := hw
    exact ⟨rfl, .idle hs hcount fun _ _ => rfl⟩
  · obtain rfl : t = { s with world := w } := hw
    dsimp only
    rw [hsame.file, hread]
    have hgo := carryOut_end hoff hsame (s := { s with world := w }) hp hs hcount
    refine ⟨hgo.1, ?_⟩
    generalize carryOut setup read { s with world := w } = r at hgo
    cases hgo.2 with
    | done hf hc => exact .done hf hc
    | idle hf hc hlog => exact .idle hf hc hlog
    | stopped hl h => exact .stopped hl h

omit hsame in
theorem settle_same (f : Failure) {t : State ω}
    (hsame : ∀ e, (notify setup' (.onError e)).run t = (notify setup (.onError e)).run t) :
    settle setup' f t = settle setup f t ∧ ∃ w, (settle setup f t).2 = { t with world := w } := by
  have hreport : ∀ e, report setup' e t = report setup e t ∧ ∃ w, (report setup e t).2 = { t with world := w } := by
    intro e
    obtain ⟨w, hw⟩ := worldOnly_notify hoff (.onError e) t
    rw [report, report, hsame]
    generalize (notify setup (.onError e)).run t = r at hw
    refine ⟨rfl, w, ?_⟩
    rcases r with ⟨(_ | _ | _) | _, v⟩ <;> exact hw
  rcases settle_cases setup f t with ⟨hf, h⟩ | ⟨hf, h⟩
  · obtain ⟨-, h'⟩ := (settle_cases setup' f t).resolve_right fun h' => h'.1 hf
    rw [h, h']
    exact hreport _
  · obtain ⟨-, h'⟩ := (settle_cases setup' f t).resolve_left fun h' => hf h'.1
    rw [h, h']
    exact ⟨rfl, t.world, rfl⟩

/-- At a limit handlers are not told. -/
theorem settle_leftOver {line : Command} (hread : read = .ok (.direct line)) {f : Failure} {t : State ω} {c : Call}
    {cs : List Call} (h : t.StackedUpTo setup p line f (c :: cs)) :
    settle setup' f t = settle setup f t ∧ ∃ w, (settle setup f t).2 = { t with world := w } := by
  rcases h with h | ⟨⟨-, rfl⟩, -⟩
  · exact settle_same hoff f fun e => hsame.handlers _ _ (.inr ⟨line, c :: cs, hread, h⟩)
  · exact ⟨rfl, t.world, rfl⟩

theorem evaluateLine_end {s : State ω} (hp : s.program = p) (hcount : 0 < s.frameCount) (text : String)
    (hread : Line.parse ⟨setup.file, (s.lineNumber + 1 : Nat), text.toList⟩ = read) :
    evaluateLine setup' text s = evaluateLine setup text s ∧
      ((∃ t, evaluateLine setup text s = (none, t) ∧ t.frames = [.top] ∧ 0 < t.frameCount) ∨
        ∃ f v w, evaluateLine setup text s = (some (settle setup f v).1, (settle setup f v).2) ∧
          (settle setup f v).2 = { v with world := w } ∧ LineEnd setup read s (.error f, v)) := by
  have hgo := runText_end hoff hsame (s := { s with lineNumber := s.lineNumber + 1, frames := [.top] }) hp rfl
    hcount text hread
  rw [evaluateLine, evaluateLine, hgo.1]
  obtain ⟨-, hend⟩ := hgo
  generalize (runText setup text).run { s with lineNumber := s.lineNumber + 1, frames := [.top] } = r at hend
  cases hend with
  | @done t hframes hpos => exact ⟨rfl, .inl ⟨t, rfl, hframes, hpos⟩⟩
  | @idle f v hframes hpos hlog =>
    obtain ⟨heq, w, hw⟩ := settle_same hoff f fun e => hsame.handlers (.onError e) v (.inl hframes)
    dsimp only
    rw [heq]
    exact ⟨rfl, .inr ⟨f, v, w, rfl, hw, .idle hframes hpos hlog⟩⟩
  | @stopped f v line c cs hdirect h =>
    obtain ⟨heq, w, hw⟩ := settle_leftOver hoff hsame hdirect (hp ▸ h.stacked)
    dsimp only
    rw [heq]
    exact ⟨rfl, .inr ⟨f, v, w, rfl, hw, .stopped hdirect h⟩⟩

end

section
variable {setup : Setup ω} (hoff : setup.HandsOff)
include hoff

theorem evaluateLine_counted (text : String) {s : State ω} (hcount : 0 < s.frameCount) :
    0 < (evaluateLine setup text s).2.frameCount := by
  rcases (evaluateLine_end hoff (.refl _ setup) rfl hcount text rfl).2 with ⟨t, ht, -, hpos⟩ | ⟨f, v, w, ht, hw, hend⟩
  · rw [ht]
    exact hpos
  · rw [ht, hw]
    cases hend with
    | idle _ hpos => exact hpos
    | stopped _ h =>
      rcases h.stacked with h | ⟨-, x, h⟩
      · exact (Nat.zero_le _).trans_lt (h.counted _ List.mem_cons_self)
      · exact (Nat.zero_le _).trans_lt (h.counted _ List.mem_cons_self)

theorem Reachable.counted {s : State ω} (hs : Reachable setup s) : 0 < s.frameCount :=
  hs.of_lines (I := fun s => 0 < s.frameCount) (fun _ => Nat.one_pos) fun text _ => evaluateLine_counted hoff text

end

theorem State.Stacked.bounded {p : Program} {line : Command} {calls logged : List Call} {s : State ω}
    (h : s.Stacked p line calls logged) (hp : p.Acyclic) :
    (s.frames.map (·.activity)).Nodup ∧ s.frames.length ≤ p.stored.length + 1 := by
  rw [h.frames, List.map_map, List.length_map]
  exact ⟨h.chain.nodup hp, h.chain.length_le hp⟩

theorem State.StackInOrder.bounded {p : Program} {read : Except ParseError Line} {s : State ω}
    (h : s.StackInOrder p read) (hp : p.Acyclic) :
    (s.frames.map (·.activity)).Nodup ∧ s.frames.length ≤ p.stored.length + 1 := by
  rcases h with h | ⟨line, calls, -, h⟩
  · rw [h]
    exact ⟨List.nodup_singleton _, Nat.le_add_left 1 _⟩
  · exact h.bounded hp

/-- **Stack discipline.** What is registered is called with the frames in order only, since it makes no
difference what else it would do. A line that succeeds ends with the frame of the session alone. One that fails
does so too, unless it is a command that was begun: then the frames are those of the calls that the failure has
stopped. At a limit there may be one more, of a step that was not logged. If no step leads back to itself, there are
never more frames than steps, besides that of the session. -/
theorem evaluateLine_stack {setup : Setup ω} (hoff : setup.HandsOff) {s : State ω} (hs : Reachable setup s) (text : String) :
    let read := Line.parse ⟨setup.file, (s.lineNumber + 1 : Nat), text.toList⟩
    (∀ setup', setup.SameWhere (State.StackInOrder s.program read) setup' → evaluateLine setup' text s = evaluateLine setup text s) ∧
      (∀ t, evaluateLine setup text s = (none, t) → t.frames = [.top]) ∧
      (∀ e t, evaluateLine setup text s = (some e, t) →
        t.frames = [.top] ∧ (∀ line, read = .ok (.direct line) → t.log = s.log) ∨
          ∃ line f v c cs, read = .ok (.direct line) ∧ settle setup f v = (e, t) ∧ LeftOver setup s.program line f v c cs ∧
            t.StackedUpTo setup s.program line f (c :: cs)) ∧
      (s.program.Acyclic → (∀ u : State ω, u.StackInOrder s.program read →
          (u.frames.map (·.activity)).Nodup ∧ u.frames.length ≤ s.program.stored.length + 1) ∧
        ((evaluateLine setup text s).2.frames.map (·.activity)).Nodup ∧
          (evaluateLine setup text s).2.frames.length ≤ s.program.stored.length + 1) := by
  intro read
  have hcount := hs.counted hoff
  have hend := (evaluateLine_end hoff (.refl _ setup) rfl hcount text rfl).2
  have hfailed : ∀ e t, evaluateLine setup text s = (some e, t) →
      t.frames = [.top] ∧ (∀ line, read = .ok (.direct line) → t.log = s.log) ∨
        ∃ line f v c cs, read = .ok (.direct line) ∧ settle setup f v = (e, t) ∧ LeftOver setup s.program line f v c cs ∧
          t.StackedUpTo setup s.program line f (c :: cs) := by
    intro e t ht
    rcases hend with ⟨t', ht', -⟩ | ⟨f, v, w, ht', hw, hend⟩
    · cases ht'.symm.trans ht
    · obtain ⟨rfl, rfl⟩ : (settle setup f v).1 = e ∧ (settle setup f v).2 = t := by simpa using ht'.symm.trans ht
      rw [hw]
      cases hend with
      | idle hframes _ hlog => exact .inl ⟨hframes, hlog⟩
      | @stopped _ _ line c cs hdirect h =>
        have hkept : v.OnCourse { v with world := w } := ⟨rfl, rfl, rfl, rfl⟩
        exact .inr ⟨line, f, v, c, cs, hdirect, Prod.ext rfl hw, h, h.stacked.imp (·.onCourse hkept)
          fun ⟨hlimit, x, hx⟩ => ⟨hlimit, x, hx.onCourse hkept⟩⟩
  have hdone : ∀ t, evaluateLine setup text s = (none, t) → t.frames = [.top] := by
    intro t ht
    rcases hend with ⟨t', ht', hframes, -⟩ | ⟨f, v, w, ht', -⟩
    · obtain rfl : t' = t := congrArg Prod.snd (ht'.symm.trans ht)
      exact hframes
    · cases ht'.symm.trans ht
  refine ⟨fun setup' hsame => (evaluateLine_end hoff hsame rfl hcount text rfl).1, hdone, hfailed, fun hp =>
    ⟨fun u hu => hu.bounded hp, ?_⟩⟩
  have htop : ∀ {t : State ω}, t.frames = [.top] →
      (t.frames.map (·.activity)).Nodup ∧ t.frames.length ≤ s.program.stored.length + 1 := fun h => by
    rw [h]
    exact ⟨List.nodup_singleton _, Nat.le_add_left 1 _⟩
  rcases hline : evaluateLine setup text s with ⟨_ | e, t⟩
  · exact htop (hdone t hline)
  · rcases hfailed e t hline with ⟨hframes, -⟩ | ⟨line, f, v, c, cs, -, -, -, h | ⟨-, x, h⟩⟩
    · exact htop hframes
    · exact h.bounded hp
    · exact h.bounded hp

def Setup.failingAt (text : String) : Setup String :=
  { Setup.plain with registry.handlers :=
      [⟨.output, 0, "test", fun
        | .output typed => if typed == text then throw (.foreign "boom") else pure ()
        | _ => pure ()⟩] }

theorem Setup.failingAt_handsOff (text : String) : (Setup.failingAt text).HandsOff where
  handlers g hg notice := by
    rw [List.eq_of_mem_singleton hg]
    intro s
    cases notice with
    | output typed =>
      dsimp only
      split <;> exact ⟨s.world, rfl⟩
    | _ => exact ⟨s.world, rfl⟩
  rules := List.forall_mem_nil _
  functions := List.forall_mem_nil _

/-- A handler that fails in the second round of a loop, in a step that is run by a step. -/
theorem evaluateLine_stack_failing :
    let setup := Setup.failingAt "1"
    let s := (evaluateLines setup ["1.1 Do part 2 for i = 3, 1.", "2.1 Type i."] (setup.start "")).2
    let r := evaluateLine setup "Do step 1.1." s
    let read := Line.parse ⟨setup.file, (s.lineNumber + 1 : Nat), "Do step 1.1.".toList⟩
    setup.HandsOff ∧ Reachable setup s ∧ s.program.Acyclic ∧
      r.1.map LineError.message = some "Extension hook 'output' failed: boom" ∧
      r.2.frames.map (fun f => (f.number, f.activity.label)) = [(3, "step 2.1"), (1, "step 1.1"), (0, "<top-level>")] ∧
      evaluateLine (setup.guarded (State.StackInOrder s.program read)) "Do step 1.1." s = r ∧
      (∃ line f v c cs, read = .ok (.direct line) ∧ LeftOver setup s.program line f v c cs ∧
        r.2.StackedUpTo setup s.program line f (c :: cs)) ∧
      r.2.frames.length ≤ s.program.stored.length + 1 := by
  intro setup s r read
  have hoff : setup.HandsOff := Setup.failingAt_handsOff "1"
  have hs : Reachable setup s := ⟨"", _, rfl⟩
  have hp : s.program.Acyclic := Program.acyclic_of_descends (fun n => if n.part = "1" then 1 else 0) (by decide +kernel)
  obtain ⟨hmessage, hframes⟩ : r.1.map LineError.message = some "Extension hook 'output' failed: boom" ∧
      r.2.frames.map (fun f => (f.number, f.activity.label)) = [(3, "step 2.1"), (1, "step 1.1"), (0, "<top-level>")] := by
    decide +kernel
  obtain ⟨hsame, -, hfailed, hbounded⟩ := evaluateLine_stack hoff hs "Do step 1.1."
  obtain ⟨e, he, -⟩ := Option.map_eq_some_iff.mp hmessage
  rcases hfailed e r.2 (Prod.ext he rfl) with ⟨htop, -⟩ | ⟨line, f, v, c, cs, hline, -, hleft, hstacked⟩
  · rw [htop] at hframes
    exact absurd hframes (by decide +kernel)
  · exact ⟨hoff, hs, hp, hmessage, hframes, hsame _ (setup.guarded_same _), ⟨line, f, v, c, cs, hline, hleft, hstacked⟩,
      (hbounded hp).2.2⟩

/-- Steps that lead back to themselves: there is room for three frames, and the last one is of a step that was not
logged. -/
theorem evaluateLine_stack_exhausted :
    let setup : Setup String := { Setup.plain with limits := { steps := 2, framed := true } }
    let s := (evaluateLines setup ["1.1 Do part 1."] (setup.start "")).2
    let r := evaluateLine setup "Do part 1." s
    setup.HandsOff ∧ Reachable setup s ∧
      r.1.map LineError.message = some "Internal interpreter error: maximum recursion depth exceeded" ∧
      r.2.frames.map (fun f => (f.number, f.activity.label, (r.2.log.lastOfFrame? f.number).isSome)) =
        [(3, "step 1.1", false), (2, "step 1.1", true), (1, "step 1.1", true), (0, "<top-level>", true)] := by
  exact ⟨⟨List.forall_mem_nil _, List.forall_mem_nil _, List.forall_mem_nil _⟩, ⟨"", _, rfl⟩, by decide +kernel⟩

end JossLang
