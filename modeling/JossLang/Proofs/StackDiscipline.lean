import JossLang.Proofs.CallStack

/-!
# Stack discipline

Whatever is registered and leaves the session alone sees the frames in order:
while a command runs, they are those of the calls under way for it, and all of
these have been logged (`command_stacked`).

That handlers, rules and functions see nothing else is said by exchange: no
line ends in another way if more is registered that does something only at
states that are not in order.
-/

namespace JossLang

variable {ω : Type}

/-! ## What is registered -/

def WorldOnly (m : Run ω Unit) : Prop := ∀ s, ∃ w, (m.run s).2 = { s with world := w }

/-- What is registered does not touch the session: handlers and rules may do something to the world, and may
fail, and functions keep to the course of the program. -/
structure Setup.HandsOff (setup : Setup ω) : Prop where
  handlers : ∀ h ∈ setup.registry.handlers, ∀ notice, WorldOnly (h.run notice)
  rules : ∀ r ∈ setup.registry.rules, ∀ notice, WorldOnly (r.run notice)
  functions : ∀ f ∈ setup.registry.functions, ∀ args pos (s : State ω), s.OnCourse ((f.run args pos).run s).2

/-- At the states in question, what is registered in one setup does the same as what is registered in the
other, which may have further handlers and rules. -/
structure Setup.SameWhere (P : State ω → Prop) (setup setup' : Setup ω) : Prop where
  file : setup'.file = setup.file
  verbose : setup'.verbose = setup.verbose
  sink : setup'.sink = setup.sink
  limits : setup'.limits = setup.limits
  elementary : setup'.elementary = setup.elementary
  handlers : ∀ notice s, P s → (notify setup' notice).run s = (notify setup notice).run s
  rules : ∀ notice s, P s →
    (runRules notice setup'.registry.rules).run s = (runRules notice setup.registry.rules).run s
  functions : List.Forall₂ (fun f f' => (f.name = f'.name ∧ f.arity = f'.arity) ∧
      ∀ args pos s, P s → (f'.run args pos).run s = (f.run args pos).run s)
    setup.registry.functions setup'.registry.functions

theorem Setup.SameWhere.refl (P : State ω → Prop) (setup : Setup ω) : setup.SameWhere P setup where
  file := rfl
  verbose := rfl
  sink := rfl
  limits := rfl
  elementary := rfl
  handlers _ _ _ := rfl
  rules _ _ _ := rfl
  functions := List.forall₂_same.mpr fun _ _ => ⟨⟨rfl, rfl⟩, fun _ _ _ _ => rfl⟩

theorem Setup.SameWhere.mono {P Q : State ω → Prop} {setup setup' : Setup ω} (h : setup.SameWhere Q setup')
    (hPQ : ∀ s, P s → Q s) : setup.SameWhere P setup' where
  file := h.file
  verbose := h.verbose
  sink := h.sink
  limits := h.limits
  elementary := h.elementary
  handlers notice s hs := h.handlers notice s (hPQ s hs)
  rules notice s hs := h.rules notice s (hPQ s hs)
  functions := h.functions.imp fun _ _ hf => ⟨hf.1, fun args pos s hs => hf.2 args pos s (hPQ s hs)⟩

open Classical in
noncomputable def checked (P : State ω → Prop) : Run ω Unit := fun s => if P s then (.ok (), s) else (.error .limit, s)

theorem checked_run {P : State ω → Prop} {s : State ω} (hs : P s) : (checked P).run s = (.ok (), s) := if_pos hs

/-- The session with further handlers of all events, and with a rule at every entry, which stop a line at any
state that is not of a kind. -/
noncomputable def Setup.guarded (setup : Setup ω) (P : State ω → Prop) : Setup ω :=
  { setup with registry :=
    { setup.registry with
      handlers := Event.all.map (fun event => ⟨event, 0, "guard", fun _ => checked P⟩) ++ setup.registry.handlers
      rules := ⟨"guard", 1, Nat.one_pos, "guard", fun _ => checked P⟩ :: setup.registry.rules } }

theorem Setup.guarded_same (setup : Setup ω) (P : State ω → Prop) : setup.SameWhere P (setup.guarded P) where
  file := rfl
  verbose := rfl
  sink := rfl
  limits := rfl
  elementary := rfl
  handlers notice s hs := by
    have hhandlers : (setup.guarded P).registry.handlersOf notice.event =
        ⟨notice.event, 0, "guard", fun _ => checked P⟩ :: setup.registry.handlersOf notice.event := by
      rw [Registry.handlersOf, Setup.guarded, List.filter_append]
      cases notice <;> rfl
    have hrun : runHandlers notice ((setup.guarded P).registry.handlersOf notice.event) s =
        runHandlers notice (setup.registry.handlersOf notice.event) s := by
      rw [hhandlers]
      show (checked P >>= fun _ => runHandlers notice (setup.registry.handlersOf notice.event)).run s = _
      rw [run_bind, checked_run hs]
      rfl
    show blame _ _ _ s = blame _ _ _ s
    rw [blame, blame, hrun]
  rules notice s hs := by
    show (runRules notice (⟨"guard", 1, Nat.one_pos, "guard", fun _ => checked P⟩ :: setup.registry.rules)).run s = _
    rw [runRules, if_pos (Nat.mod_one _), run_bind, checked_run hs]
  functions := List.forall₂_same.mpr fun _ _ => ⟨⟨rfl, rfl⟩, fun _ _ _ _ => rfl⟩

section

theorem worldOnly_pure : WorldOnly (pure () : Run ω Unit) := fun s => ⟨s.world, rfl⟩

theorem WorldOnly.bind {m n : Run ω Unit} (h : WorldOnly m) (h' : WorldOnly n) : WorldOnly (m >>= fun _ => n) := by
  intro s
  obtain ⟨w, hw⟩ := h s
  rw [run_bind]
  generalize m.run s = r at hw
  obtain ⟨_ | _, t⟩ := r
  · exact ⟨w, hw⟩
  · obtain rfl : t = { s with world := w } := hw
    exact h' _

theorem WorldOnly.blame {m : Run ω Unit} (h : WorldOnly m) (cause : String → Cause) (pos : State ω → Option Location) :
    WorldOnly (blame cause pos m) := by
  intro s
  obtain ⟨w, hw⟩ := h s
  have hw : (m s).2 = { s with world := w } := hw
  show ∃ w, (JossLang.blame cause pos m s).2 = _
  rw [JossLang.blame]
  generalize m s = r at hw
  rcases r with ⟨(_ | _ | _) | _, t⟩ <;> exact ⟨w, hw⟩

theorem worldOnly_runHandlers (notice : Notice) : ∀ hs : List (Handler ω),
    (∀ g ∈ hs, ∀ notice, WorldOnly (g.run notice)) → WorldOnly (runHandlers notice hs)
  | [], _ => worldOnly_pure
  | g :: hs, h => by
    obtain ⟨hg, h⟩ := List.forall_mem_cons.mp h
    exact (hg notice).bind (worldOnly_runHandlers notice hs h)

theorem worldOnly_runRules (notice : StepNotice) : ∀ rs : List (StepRule ω),
    (∀ r ∈ rs, ∀ notice, WorldOnly (r.run notice)) → WorldOnly (runRules notice rs)
  | [], _ => worldOnly_pure
  | r :: rs, h => by
    obtain ⟨hr, h⟩ := List.forall_mem_cons.mp h
    rw [runRules]
    split
    · exact (hr notice).bind (worldOnly_runRules notice rs h)
    · exact worldOnly_pure.bind (worldOnly_runRules notice rs h)

variable {setup setup' : Setup ω} (hoff : setup.HandsOff)
include hoff

theorem worldOnly_notify (notice : Notice) : WorldOnly (notify setup notice) :=
  (worldOnly_runHandlers notice _ fun g hg => hoff.handlers g (List.mem_of_mem_filter hg)).blame _ _

theorem record_same {P : State ω → Prop} (hsame : setup.SameWhere P setup') (action : Action) (pos : Location) {s : State ω}
    (hs : P (s.record setup.verbose action pos)) : (record setup' action pos).run s = (record setup action pos).run s ∧
      ∃ w, ((record setup action pos).run s).2 = { s.record setup.verbose action pos with world := w } := by
  have hrun : ∀ setup : Setup ω, (record setup action pos).run s =
      blame .ruleFailed (fun _ => some pos) (runRules ⟨s.log.nextIndex, action, pos⟩ setup.registry.rules)
        (s.record setup.verbose action pos) := fun _ => rfl
  have hrules : runRules ⟨s.log.nextIndex, action, pos⟩ setup'.registry.rules (s.record setup.verbose action pos) =
      runRules ⟨s.log.nextIndex, action, pos⟩ setup.registry.rules (s.record setup.verbose action pos) := hsame.rules _ _ hs
  rw [hrun, hrun, hsame.verbose, blame, hrules]
  exact ⟨rfl, (worldOnly_runRules _ _ hoff.rules).blame _ _ _⟩

end

/-! ## One command -/

def Command.runWith (setup : Setup ω) (runStep : StepRunner ω) (c : Command) : Run ω Unit := do
  record setup (.command c.verb.label) c.pos
  notify setup (.beforeCommand c)
  if ← guardHolds setup c.guard then c.verb.run setup runStep
  notify setup (.afterCommand c)

theorem Command.run_eq_runWith (setup : Setup ω) (d : Nat) (c : Command) :
    c.run setup d = c.runWith setup (Comparison.stepRunner setup d) := Comparison.command_run setup d c

theorem Command.runWith_unhooked {setup : Setup ω} (hu : setup.Unhooked) (r : StepRunner ω) (c : Command) (s : State ω) :
    (c.runWith setup r).run s =
      match (guardHolds setup c.guard).run (s.record setup.verbose (.command c.verb.label) c.pos) with
      | (.error f, t) => (.error f, t)
      | (.ok false, t) => (.ok (), t)
      | (.ok true, t) => (c.verb.run setup r).run t := by
  rw [runWith, run_bind, hu.record_run]
  dsimp only
  rw [run_bind, hu.notify_run]
  dsimp only
  rw [run_bind]
  generalize (guardHolds setup c.guard).run (s.record setup.verbose (.command c.verb.label) c.pos) = result
  rcases result with ⟨f | (_ | _), t⟩
  · rfl
  · exact hu.notify_run _ t
  · dsimp only
    rw [if_pos rfl, run_bind]
    generalize (c.verb.run setup r).run t = ended
    rcases ended with ⟨f | u, v⟩
    · rfl
    · exact hu.notify_run _ v

inductive Setup.Raises (setup : Setup ω) : Failure → Prop where
  | cause (cause : Cause) (pos : Option Location) : Raises setup (.error (.runtime { cause := cause, pos := pos }))
  | limit : Raises setup .limit
  | endless : Raises setup .endless
  | refusal (text : String) (w : ω) {message : String} : (setup.sink text w).1 = .error message → Raises setup (.foreign message)
  | missing (p : Program) (pos : Location) (goal : Goal) {f : Failure} : p.stepsOf pos goal = .error f → Raises setup f
  | handler (notice : Notice) (s : State ω) {f : Failure} : ((notify setup notice).run s).1 = .error f → Raises setup f
  | rule (action : Action) (pos : Location) (s : State ω) {f : Failure} : ((record setup action pos).run s).1 = .error f →
      Raises setup f
  | function {g : AddedFunction ω} (hg : g ∈ setup.registry.functions) (args : List Value) (pos : Location) (s : State ω)
      {f : Failure} : ((g.run args pos).run s).1 = .error f → Raises setup f

namespace Lockstep

def within (setup setup' : Setup ω) (I : State ω → Prop) (failed excused : Failure → State ω → Prop) : Lockstep ω ω where
  left := setup
  right := setup'
  states s s' := s' = s ∧ I s
  failed f t t' := t' = t ∧ failed f t
  excused := excused

section
variable {setup setup' : Setup ω} {I : State ω → Prop} {failed excused : Failure → State ω → Prop}
  (hI : ∀ s t, I s → s.OnCourse t → I t) (hfailed : ∀ f t, I t → setup.Raises f → failed f t)
  (hoff : setup.HandsOff) (hsame : setup.SameWhere I setup')

theorem outcome_same (hfailed : ∀ f t, I t → setup.Raises f → failed f t) {α : Type} {r r' : Except Failure α × State ω}
    (h : r' = r) (hr : I r.2) (hraises : ∀ f, r.1 = .error f → setup.Raises f) :
    (within setup setup' I failed excused).Outcome r r' := by
  subst h
  obtain ⟨f | _, t⟩ := r'
  · exact .error ⟨rfl, hfailed f t hr (hraises f rfl)⟩
  · exact .ok ⟨rfl, hr⟩

include hI hfailed hoff hsame

theorem within_notify (notice : Notice) :
    (within setup setup' I failed excused).Agree (notify setup notice) (notify setup' notice) := by
  rintro _ s ⟨rfl, hs⟩
  obtain ⟨w, hw⟩ := worldOnly_notify hoff notice s
  exact outcome_same hfailed (hsame.handlers notice s hs) (hw ▸ hI s _ hs ⟨rfl, rfl, rfl, rfl⟩) fun _ hraised =>
    .handler notice s hraised

theorem within_performs : (within setup setup' I failed excused).Performs where
  limits := .inl hsame.limits
  elementary := hsame.elementary
  functions := by
    refine (List.forall₂_and_left _ _ |>.mpr ⟨fun _ hmem => hmem, hsame.functions⟩).imp fun f f' h =>
      ⟨h.2.1.1, h.2.1.2, fun args pos => ?_⟩
    rintro _ s ⟨rfl, hs⟩
    exact outcome_same hfailed (h.2.2 args pos s hs) (hI s _ hs (hoff.functions f h.1 args pos s)) fun _ hraised =>
      .function h.1 args pos s hraised
  raised := by
    rintro cause pos _ s ⟨rfl, hs⟩
    exact ⟨rfl, hfailed _ _ hs (.cause cause pos)⟩
  limit := by
    rintro _ s ⟨rfl, hs⟩
    exact ⟨rfl, hfailed _ _ hs .limit⟩
  endless := by
    rintro _ s ⟨rfl, hs⟩
    exact ⟨rfl, hfailed _ _ hs .endless⟩
  names := by
    rintro _ s ⟨rfl, -⟩ isBuiltin x
    rfl
  elements := agree_elements (fun _ _ hs => by rw [hs.1]) fun cause pos _ _ hs =>
    ⟨hs.1, hfailed _ _ hs.2 (.cause cause pos)⟩
  marks := by
    rintro _ s ⟨rfl, hs⟩
    exact ⟨rfl, rfl, hI s _ hs ⟨rfl, rfl, rfl, rfl⟩⟩
  program := by
    rintro _ s ⟨rfl, hs⟩
    exact ⟨rfl, fun pos goal _ hmissing => ⟨rfl, hfailed _ _ hs (.missing _ pos goal hmissing)⟩⟩
  environment g _ := by
    rintro _ s ⟨rfl, hs⟩
    exact ⟨rfl, hI s _ hs ⟨rfl, rfl, rfl, rfl⟩⟩
  output text := within_notify hI hfailed hoff hsame (.output text)
  delivered text := by
    have hsink : (within setup setup' I failed excused).right.sink = (within setup setup' I failed excused).left.sink :=
      hsame.sink
    refine agree_deliver ?_ ?_ ?_
    · rintro _ s ⟨rfl, -⟩
      rw [hsink]
    · rintro _ s ⟨rfl, hs⟩
      rw [hsink]
      exact ⟨rfl, hI s _ hs ⟨rfl, rfl, rfl, rfl⟩⟩
    · rintro message _ s ⟨rfl, hs⟩ hrefused
      rw [hsink]
      exact ⟨rfl, hfailed _ _ (hI s _ hs ⟨rfl, rfl, rfl, rfl⟩) (.refusal text s.world hrefused)⟩

theorem within_runWith {c : Command} {r r' : StepRunner ω} {u : State ω}
    (hu : I (u.record setup.verbose (.command c.verb.label) c.pos))
    (hr : ∀ s pos step, I s → s.program.Targets c pos step →
      (within setup setup' I failed excused).Agree (r step pos) (r' step pos)) :
    (within setup setup' I failed excused).Outcome ((c.runWith setup r).run u) ((c.runWith setup' r').run u) := by
  have hC : (within setup setup' I failed excused).Performs := within_performs hI hfailed hoff hsame
  have hnotify : ∀ notice, (within setup setup' I failed excused).Agree (notify setup notice) (notify setup' notice) :=
    within_notify hI hfailed hoff hsame
  have hrecord : (within setup setup' I failed excused).Outcome ((record setup (.command c.verb.label) c.pos).run u)
      ((record setup' (.command c.verb.label) c.pos).run u) := by
    obtain ⟨heq, w, hw⟩ := record_same hoff hsame (.command c.verb.label) c.pos hu
    exact outcome_same hfailed heq (hw ▸ hI _ _ hu ⟨rfl, rfl, rfl, rfl⟩) fun _ hraised => .rule _ _ u hraised
  unfold Command.runWith
  refine hrecord.bind fun _ => (hnotify (.beforeCommand c)).bind fun _ => (agree_guardHolds hC c.guard).bind fun b => ?_
  split
  · refine Agree.bind (agree_verb hC c.verb ?_) fun _ => hnotify (.afterCommand c)
    rintro pos goal loop hv _ s steps ⟨rfl, hs⟩ hsteps step hstep
    exact hr s pos step hs ⟨goal, loop, steps, hv, hsteps, hstep⟩
  · exact hnotify (.afterCommand c)

end

end Lockstep

/-! ## Steps within steps -/

open Comparison (stepRunner)

theorem stepRunner_enter (setup : Setup ω) (d : Nat) (step : Step) (pos : Location) (s : State ω) :
    (stepRunner setup (d + 1) step pos).run s = match (step.command.run setup d).run (s.enter step pos) with
      | (.ok _, t) => (.ok (), t.leave)
      | (.error f, t) => (.error f, t) := by
  show ((do step.command.run setup d; popFrame : Run ω Unit)).run (s.enter step pos) = _
  rw [run_bind]
  rcases (step.command.run setup d).run (s.enter step pos) with ⟨_ | _, _⟩ <;> rfl

section
variable {setup setup' : Setup ω} {p : Program} {line : Command} (hoff : setup.HandsOff)
  (hsame : ∀ calls, setup.SameWhere (·.Stacked p line calls calls) setup')

abbrev Lockstep.stack (setup setup' : Setup ω) (p : Program) (line : Command) (calls : List Call) : Lockstep ω ω :=
  .within setup setup' (·.Stacked p line calls calls) (fun _ _ => True) fun _ _ => False

theorem stepRunner_agree_succ {d : Nat} (hcommand : ∀ (c : Call) (cs : List Call) (u : State ω), u.Begins p line c cs →
      (Lockstep.stack setup setup' p line (c :: cs)).Outcome ((c.command.run setup d).run u) ((c.command.run setup' d).run u))
    {c : Call} {cs : List Call} {s : State ω} (hs : s.Stacked p line (c :: cs) (c :: cs)) {pos : Location} {step : Step}
    (ht : p.Targets c.command pos step) :
    (Lockstep.stack setup setup' p line (c :: cs)).Outcome ((stepRunner setup (d + 1) step pos).run s)
      ((stepRunner setup' (d + 1) step pos).run s) := by
  have ho := hcommand _ _ _ (hs.enter ht)
  rw [stepRunner_enter, stepRunner_enter]
  dsimp only at ho
  generalize (step.command.run setup d).run (s.enter step pos) = r at ho ⊢
  generalize (step.command.run setup' d).run (s.enter step pos) = r' at ho ⊢
  cases ho with
  | ok ht => exact .ok ⟨congrArg State.leave ht.1, ht.2.leave⟩
  | error ht => exact .error ⟨ht.1, trivial⟩
  | excused ht => exact ht.elim

include hoff hsame

theorem command_stacked_of_steps {d : Nat} {c : Call} {cs : List Call} {u : State ω} (hu : u.Begins p line c cs)
    (hr : ∀ s pos step, s.Stacked p line (c :: cs) (c :: cs) → p.Targets c.command pos step →
      (Lockstep.stack setup setup' p line (c :: cs)).Outcome ((stepRunner setup d step pos).run s)
        ((stepRunner setup' d step pos).run s)) :
    (Lockstep.stack setup setup' p line (c :: cs)).Outcome ((c.command.run setup d).run u) ((c.command.run setup' d).run u) := by
  rw [Command.run_eq_runWith, Command.run_eq_runWith]
  refine Lockstep.within_runWith (fun _ _ => State.Stacked.onCourse) (fun _ _ _ _ => trivial) hoff (hsame _)
    (hu.record _) fun s pos step hs ht => ?_
  rintro _ v ⟨rfl, hv⟩
  exact hr v pos step hv (hs.program ▸ ht)

/-- **Commands.** With the command's frame on top, the session comes to the same in both setups, and if the
command succeeds, its frame is on top again. -/
theorem command_stacked (d : Nat) : ∀ (c : Call) (cs : List Call) (u : State ω), u.Begins p line c cs →
    (Lockstep.stack setup setup' p line (c :: cs)).Outcome ((c.command.run setup d).run u) ((c.command.run setup' d).run u) := by
  induction d with
  | zero =>
    refine fun c cs u hu => command_stacked_of_steps hoff hsame hu fun s pos step _ _ => ?_
    obtain ⟨frames, count, hrun⟩ := Comparison.stepRunner_zero setup step pos s
    have hsame : stepRunner setup' 0 step pos = stepRunner setup 0 step pos := by
      rw [stepRunner, stepRunner, (hsame []).limits]
    rw [hsame, hrun]
    exact .error ⟨rfl, trivial⟩
  | succ d ih => exact fun c cs u hu => command_stacked_of_steps hoff hsame hu fun _ _ _ hs ht => stepRunner_agree_succ ih hs ht

end

end JossLang
