import JossLang.Proofs.LockstepRuns
import JossLang.Proofs.StoredProgram

/-!
# Call stack

The calls under way are the command of a line and, on each `Do`, a step that it
runs (`Program.Calls`). A state is stacked when its frames are those of such
calls and the log shows each of them under its frame (`State.Stacked`).

If no step leads back to itself, no step has two frames (`Calls.nodup`).
-/

namespace JossLang

variable {ω : Type}

/-! ## Calls -/

structure Call where
  frame : Frame
  command : Command
  index : Nat

namespace Program

/-- The command is a `Do` at a location, and the step is one of those that it runs. -/
def Targets (p : Program) (c : Command) (pos : Location) (step : Step) : Prop :=
  ∃ goal loop steps, c.verb = .perform pos goal loop ∧ p.stepsOf pos goal = .ok steps ∧ step ∈ steps

/-- Calls under way for a command of a line, the innermost first. -/
inductive Calls (p : Program) (line : Command) : List Call → Prop where
  | line {i : Nat} : Calls p line [⟨.top, line, i⟩]
  | step {c : Call} {cs : List Call} {pos : Location} {step : Step} {n i : Nat} : Calls p line (c :: cs) →
      p.Targets c.command pos step → c.frame.number < n →
      Calls p line (⟨⟨n, .step step.number, some pos⟩, step.command, i⟩ :: c :: cs)

def stored (p : Program) : List Step := p.table.map (·.2)

theorem mem_stored_iff {p : Program} {s : Step} : s ∈ p.stored ↔ p.Holds s := by simp [stored, Holds]

theorem holds_of_stepsOf {p : Program} {pos : Location} {goal : Goal} {steps : List Step}
    (h : p.stepsOf pos goal = .ok steps) {s : Step} (hs : s ∈ steps) : p.Holds s := by
  cases goal with
  | step number =>
    rw [stepsOf] at h
    cases hfound : p.step? number with
    | none => simp [hfound] at h
    | some t =>
      rw [hfound] at h
      obtain rfl : [t] = steps := by simpa using h
      obtain rfl := List.eq_of_mem_singleton hs
      exact holds_of_step? hfound
  | part part =>
    rw [stepsOf] at h
    split at h
    · cases hfound : p.partSteps part with
      | error n => simp [hfound, Except.mapError] at h
      | ok ss =>
        obtain rfl : ss = steps := by simpa [hfound, Except.mapError] using h
        exact holds_of_lookUp hfound s hs
    · cases h

theorem Targets.holds {p : Program} {c : Command} {pos : Location} {step : Step} (h : p.Targets c pos step) :
    p.Holds step := by
  obtain ⟨goal, loop, steps, -, hsteps, hstep⟩ := h
  exact holds_of_stepsOf hsteps hstep

section
variable {p : Program} {line : Command} {c : Call} {cs : List Call}

theorem Calls.number_lt (h : p.Calls line (c :: cs)) : ∀ x ∈ cs, x.frame.number < c.frame.number := by
  generalize hcs : c :: cs = calls at h
  induction h generalizing c cs with
  | line =>
    obtain ⟨-, rfl⟩ := List.cons.inj hcs
    exact List.forall_mem_nil _
  | @step c' cs' _ _ _ _ _ _ hlt ih =>
    obtain ⟨rfl, rfl⟩ := List.cons.inj hcs
    intro x hx
    rcases List.mem_cons.mp hx with rfl | hx
    · exact hlt
    · exact (ih rfl x hx).trans hlt

theorem Calls.holds (h : p.Calls line (c :: cs)) {n : StepNumber} (hn : c.frame.activity = .step n) :
    p.Holds ⟨n, c.command⟩ := by
  cases h with
  | line => cases hn
  | step _ ht _ =>
    obtain rfl := Activity.step.inj hn
    exact ht.holds

/-! ## Steps that lead to steps -/

def Refers (p : Program) (n m : StepNumber) : Prop :=
  ∃ c pos t, p.Holds ⟨n, c⟩ ∧ p.Targets c pos t ∧ t.number = m

def Acyclic (p : Program) : Prop := ∀ n, ¬ Relation.TransGen p.Refers n n

def descends (p : Program) (rank : StepNumber → Nat) : Bool :=
  p.stored.all fun s =>
    match s.command.verb with
    | .perform pos goal _ =>
      match p.stepsOf pos goal with
      | .ok steps => steps.all fun t => rank t.number < rank s.number
      | .error _ => true
    | _ => true

theorem acyclic_of_descends {p : Program} (rank : StepNumber → Nat) (h : p.descends rank) : p.Acyclic := by
  have hrefers : ∀ n m, p.Refers n m → rank m < rank n := by
    rintro n _ ⟨c, pos, t, hc, ⟨goal, loop, steps, hv, hsteps, ht⟩, rfl⟩
    have hstep := List.all_eq_true.mp h _ (mem_stored_iff.mpr hc)
    simp only [hv, hsteps, List.all_eq_true, decide_eq_true_eq] at hstep
    exact hstep t ht
  have hpath : ∀ n m, Relation.TransGen p.Refers n m → rank m < rank n := by
    intro n m hnm
    induction hnm with
    | single hm => exact hrefers _ _ hm
    | tail _ hm ih => exact (hrefers _ _ hm).trans ih
  exact fun n hn => lt_irrefl _ (hpath n n hn)

theorem Calls.refers (h : p.Calls line (c :: cs)) {n m : StepNumber} (hm : c.frame.activity = .step m) :
    ∀ x ∈ cs, x.frame.activity = .step n → Relation.TransGen p.Refers n m := by
  generalize hcs : c :: cs = calls at h
  induction h generalizing c cs m with
  | line =>
    obtain ⟨-, rfl⟩ := List.cons.inj hcs
    exact List.forall_mem_nil _
  | @step c' cs' pos t k i hcalls ht _ ih =>
    obtain ⟨rfl, rfl⟩ := List.cons.inj hcs
    obtain rfl := Activity.step.inj hm
    intro x hx hn
    rcases List.mem_cons.mp hx with rfl | hinner
    · exact .single ⟨_, pos, t, hcalls.holds hn, ht, rfl⟩
    · cases hact : c'.frame.activity with
      | topLevel =>
        -- the line's own command is the outermost call
        cases hcalls with
        | line => exact absurd hinner List.not_mem_nil
        | step => cases hact
      | step k => exact (ih hact rfl x hinner hn).tail ⟨_, pos, t, hcalls.holds hact, ht, rfl⟩

theorem Calls.nodup {calls : List Call} (h : p.Calls line calls) (hp : p.Acyclic) :
    (calls.map (·.frame.activity)).Nodup := by
  induction h with
  | line => exact List.nodup_singleton _
  | @step c' cs' pos t k i hcalls ht hlt ih =>
    refine List.nodup_cons.mpr ⟨fun hmem => ?_, ih⟩
    obtain ⟨x, hx, hact⟩ := List.mem_map.mp hmem
    exact hp t.number ((hcalls.step (i := i) ht hlt).refers rfl x hx hact)

theorem Calls.activity_mem {calls : List Call} (h : p.Calls line calls) :
    ∀ c ∈ calls, c.frame.activity ∈ Activity.topLevel :: p.stored.map (.step ·.number) := by
  induction h with
  | line =>
    intro c hc
    rw [List.eq_of_mem_singleton hc]
    exact List.mem_cons_self
  | step _ ht _ ih =>
    refine List.forall_mem_cons.mpr ⟨List.mem_cons_of_mem _ ?_, ih⟩
    exact List.mem_map.mpr ⟨_, mem_stored_iff.mpr ht.holds, rfl⟩

/-- There is at most one frame for each step, besides that of the line. -/
theorem Calls.length_le {calls : List Call} (h : p.Calls line calls) (hp : p.Acyclic) :
    calls.length ≤ p.stored.length + 1 := by
  have hsub : calls.map (·.frame.activity) ⊆ Activity.topLevel :: p.stored.map (.step ·.number) := by
    intro a ha
    obtain ⟨c, hc, rfl⟩ := List.mem_map.mp ha
    exact h.activity_mem c hc
  simpa using ((h.nodup hp).subperm hsub).length_le

end

end Program

/-! ## States -/

def Log.Shows (log : Log) (c : Call) : Prop :=
  ∃ e, log.lastOfFrame? c.frame.number = some e ∧ e.index = c.index ∧ e.action = .command c.command.verb.label ∧
    e.pos = some c.command.pos

structure State.OnCourse (s t : State ω) : Prop where
  program : t.program = s.program
  log : t.log = s.log
  frames : t.frames = s.frames
  frameCount : t.frameCount = s.frameCount

/-- The frames are those of the calls under way for a command in a program, of which some have been logged. -/
structure State.Stacked (s : State ω) (p : Program) (line : Command) (calls logged : List Call) : Prop where
  program : s.program = p
  chain : p.Calls line calls
  frames : s.frames = calls.map (·.frame)
  shows : ∀ c ∈ logged, s.log.Shows c
  counted : ∀ c ∈ calls, c.frame.number < s.frameCount

structure State.Begins (s : State ω) (p : Program) (line : Command) (c : Call) (cs : List Call) : Prop
    extends s.Stacked p line (c :: cs) cs where
  index : c.index = s.log.nextIndex

def State.enter (s : State ω) (step : Step) (pos : Location) : State ω :=
  { s with frames := ⟨s.frameCount, .step step.number, some pos⟩ :: s.frames, frameCount := s.frameCount + 1 }

def State.leave (s : State ω) : State ω := { s with frames := s.frames.tail }

namespace State.Stacked

variable {s t : State ω} {p : Program} {line : Command} {c x : Call} {calls logged cs : List Call}

theorem onCourse (h : s.Stacked p line calls logged) (ht : s.OnCourse t) : t.Stacked p line calls logged where
  program := ht.program.trans h.program
  chain := h.chain
  frames := ht.frames ▸ h.frames
  shows := ht.log ▸ h.shows
  counted := ht.frameCount ▸ h.counted

theorem enter (h : s.Stacked p line (c :: cs) (c :: cs)) {pos : Location} {step : Step}
    (ht : p.Targets c.command pos step) :
    (s.enter step pos).Begins p line ⟨⟨s.frameCount, .step step.number, some pos⟩, step.command, s.log.nextIndex⟩ (c :: cs) where
  index := rfl
  program := h.program
  chain := h.chain.step ht (h.counted c List.mem_cons_self)
  frames := congrArg _ h.frames
  shows := h.shows
  counted := List.forall_mem_cons.mpr ⟨s.frameCount.lt_succ_self, fun x hx => (h.counted x hx).trans s.frameCount.lt_succ_self⟩

theorem leave (h : s.Stacked p line (x :: c :: cs) (x :: c :: cs)) : s.leave.Stacked p line (c :: cs) (c :: cs) where
  program := h.program
  chain := by
    cases h.chain with
    | step hcalls => exact hcalls
  frames := congrArg List.tail h.frames
  shows y hy := h.shows y (List.mem_cons_of_mem _ hy)
  counted y hy := h.counted y (List.mem_cons_of_mem _ hy)

end State.Stacked

namespace State.Begins

variable {s : State ω} {p : Program} {line : Command} {c : Call} {cs : List Call}

theorem top (h : s.frames = [.top]) (hcount : 0 < s.frameCount) : s.Begins s.program line ⟨.top, line, s.log.nextIndex⟩ [] where
  index := rfl
  program := rfl
  chain := .line
  frames := h
  shows := List.forall_mem_nil _
  counted := by
    intro c hc
    rw [List.eq_of_mem_singleton hc]
    exact hcount

theorem record (h : s.Begins p line c cs) (verbose : Bool) :
    (s.record verbose (.command c.command.verb.label) c.command.pos).Stacked p line (c :: cs) (c :: cs) where
  program := h.program
  chain := h.chain
  frames := h.frames
  shows := by
    have hframe : s.frames.head?.map (·.number) = some c.frame.number := by rw [h.frames]; rfl
    intro x hx
    simp only [State.record, hframe, Log.Shows, Log.lastOfFrame?, Log.record, List.find?_cons]
    by_cases hn : c.frame.number = x.frame.number
    · rcases List.mem_cons.mp hx with rfl | hx
      · simp [h.index]
      · exact absurd hn (h.chain.number_lt x hx).ne'
    · rcases List.mem_cons.mp hx with rfl | hx
      · exact absurd rfl hn
      · have hne : (some c.frame.number == some x.frame.number) = false := by simpa using hn
        rw [hne]
        exact h.shows x hx
  counted := h.counted

end State.Begins

end JossLang
