import JossLang.Proofs.LogIntegrity

/-!
# Schedules of rules

A rule is called for the entries of the log whose index is a positive multiple of its interval, as soon as such an entry
is made and before anything else happens. So the calls of a run can be read off its log, if no rule fails
(`rules_on_schedule`).
-/

namespace JossLang

variable {ω ω' α : Type}

/-! ## Calls of rules -/

structure RuleCall (ω : Type) where
  rule : StepRule ω
  notice : StepNotice
  result : Except Failure Unit

def StepRule.notingCalls (r : StepRule ω) : StepRule (ω × List (RuleCall ω)) :=
  { r with run := fun notice s =>
      let (result, t) := (r.run notice).run s.first
      (result, t.beside (s.world.2 ++ [⟨r, notice, result⟩])) }

def Lockstep.withRules (C : Lockstep ω ω') (rules : List (StepRule ω')) : Lockstep ω ω' :=
  { C with right := { C.right with registry := { C.right.registry with rules := rules } } }

/-- The session in which the calls of rules are noted. -/
def Setup.notingCalls (setup : Setup ω) : Setup (ω × List (RuleCall ω)) :=
  let noted := setup.beside fun _ calls => calls
  { noted with registry := { noted.registry with rules := setup.registry.rules.map StepRule.notingCalls } }

abbrev Appointment (ω : Type) := StepRule ω × Nat × Action × Option Location

def RuleCall.appointment (c : RuleCall ω) : Appointment ω := (c.rule, c.notice.index, c.notice.action, some c.notice.pos)

/-- The rules that are due at an entry; none is at the first one, the seed. -/
def Registry.dueAt (r : Registry ω) (e : Entry) : List (StepRule ω) :=
  r.rules.filter fun rule => 0 < e.index ∧ rule.every ∣ e.index

/-- The rules that are due at each of the entries, in the order in which they were registered. -/
def Registry.schedule (r : Registry ω) (entries : List Entry) : List (Appointment ω) :=
  entries.flatMap fun e => (r.dueAt e).map fun rule => (rule, e.index, e.action, e.pos)

def LeavesLog (m : Run ω α) : Prop := ∀ s : State ω, (m.run s).2.log = s.log

/-- All that is registered leaves the log alone. It may change everything else, and may fail. -/
structure Setup.LeavesLog (setup : Setup ω) : Prop where
  functions : ∀ g ∈ setup.registry.functions, ∀ args pos, JossLang.LeavesLog (g.run args pos)
  handlers : ∀ h ∈ setup.registry.handlers, ∀ notice, JossLang.LeavesLog (h.run notice)
  rules : ∀ r ∈ setup.registry.rules, ∀ notice, JossLang.LeavesLog (r.run notice)

structure State.OnSchedule (registry : Registry ω) (s : State ω) (calls : List (RuleCall ω)) : Prop where
  started : 0 < s.log.nextIndex
  among : (calls.map RuleCall.appointment).Sublist (registry.schedule s.log.toList)
  kept : (∀ c ∈ calls, c.result = .ok ()) → calls.map RuleCall.appointment = registry.schedule s.log.toList

theorem State.OnSchedule.of_log {registry : Registry ω} {s t : State ω} {calls : List (RuleCall ω)}
    (h : s.OnSchedule registry calls) (ht : t.log = s.log) : t.OnSchedule registry calls :=
  ⟨ht ▸ h.started, ht ▸ h.among, ht ▸ h.kept⟩

theorem LeavesLog.stays {m : Run ω α} (h : LeavesLog m) {I : State ω → Prop} (hI : ∀ {s t}, I s → t.log = s.log → I t) :
    Stays I (fun _ => I) m := by
  intro s hs
  have ht := h s
  generalize m.run s = r at ht ⊢
  obtain ⟨_ | _, t⟩ := r
  · exact .error (hI hs ht)
  · exact .ok (hI hs ht)

/-! ## Calls for one entry -/

theorem runRules_notingCalls (notice : StepNotice) (rules : List (StepRule ω)) (s : State ω) (calls : List (RuleCall ω)) :
    ∃ more : List (RuleCall ω),
      (runRules notice (rules.map StepRule.notingCalls)).run (s.beside calls) =
        (((runRules notice rules).run s).1, ((runRules notice rules).run s).2.beside (calls ++ more)) ∧
      let due := (rules.filter (·.every ∣ notice.index)).map fun r => (r, notice.index, notice.action, some notice.pos)
      (more.map RuleCall.appointment).Sublist due ∧
        ((∀ c ∈ more, c.result = .ok ()) → more.map RuleCall.appointment = due) := by
  induction rules generalizing s calls with
  | nil => exact ⟨[], by rw [List.append_nil]; rfl, .slnil, fun _ => rfl⟩
  | cons r rules ih =>
    rw [List.map_cons, runRules, runRules]
    by_cases hdue : notice.index % r.every = 0
    · have hdvd : r.every ∣ notice.index := Nat.dvd_of_mod_eq_zero hdue
      have hrun : (r.notingCalls.run notice).run (s.beside calls) = (((r.run notice).run s).1,
          ((r.run notice).run s).2.beside (calls ++ [⟨r, notice, ((r.run notice).run s).1⟩])) := rfl
      rw [if_pos hdue, if_pos (show notice.index % r.notingCalls.every = 0 from hdue),
        List.filter_cons_of_pos (by simpa using hdvd), run_bind, run_bind, hrun]
      obtain ⟨f | _, t⟩ := (r.run notice).run s
      · refine ⟨[⟨r, notice, .error f⟩], rfl, ?_, fun hall => ?_⟩
        · exact (List.nil_sublist _).cons_cons _
        · cases hall _ List.mem_cons_self
      · obtain ⟨more, hmore, hamong, hkept⟩ := ih t (calls ++ [⟨r, notice, .ok ()⟩])
        refine ⟨⟨r, notice, .ok ()⟩ :: more, ?_, hamong.cons_cons _, fun hall => ?_⟩
        · dsimp only
          rw [hmore, List.append_assoc, List.singleton_append]
        · exact congrArg _ (hkept (List.forall_mem_cons.mp hall).2)
    · have hdvd : ¬ r.every ∣ notice.index := mt Nat.mod_eq_zero_of_dvd hdue
      rw [if_neg hdue, if_neg (show ¬ notice.index % r.notingCalls.every = 0 from hdue),
        List.filter_cons_of_neg (by simpa using hdvd)]
      exact ih s calls

theorem Registry.schedule_append (r : Registry ω) (entries more : List Entry) :
    r.schedule (entries ++ more) = r.schedule entries ++ r.schedule more := List.flatMap_append

section
variable {setup : Setup ω} (h : setup.LeavesLog)
include h

theorem notify_leavesLog (notice : Notice) : LeavesLog (notify setup notice) := by
  intro s
  have hstays : Stays (fun t => t.log = s.log) (fun _ t => t.log = s.log) (notify setup notice) :=
    stays_notify (fun _ _ _ _ ht => ht) fun g hg _ => (h.handlers g hg notice).stays fun hs ht => ht.trans hs
  exact hstays.state rfl

theorem record_log (action : Action) (pos : Location) (s : State ω) :
    ((record setup action pos).run s).2.log = (s.record setup.verbose action pos).log := by
  have hrules : Stays (fun t => t.log = (s.record setup.verbose action pos).log)
      (fun _ t => t.log = (s.record setup.verbose action pos).log) (runRules ⟨s.log.nextIndex, action, pos⟩ setup.registry.rules) :=
    stays_runRules _ _ fun r hr => (h.rules r hr _).stays fun hs ht => ht.trans hs
  exact (hrules.blame .ruleFailed (fun _ => some pos) fun _ _ => id).state rfl

/-- **Entries.** Each one is followed by the calls that are due at it. -/
theorem record_notingCalls (action : Action) (pos : Location) {s : State ω} {calls : List (RuleCall ω)}
    (hs : s.OnSchedule setup.registry calls) :
    ∃ calls', (record setup.notingCalls action pos).run (s.beside calls) =
        (((record setup action pos).run s).1, ((record setup action pos).run s).2.beside calls') ∧
      ((record setup action pos).run s).2.OnSchedule setup.registry calls' := by
  have hlog := record_log h action pos s
  obtain ⟨more, hmore, hamong, hkept⟩ :=
    runRules_notingCalls ⟨s.log.nextIndex, action, pos⟩ setup.registry.rules (s.record setup.verbose action pos) calls
  refine ⟨calls ++ more, ?_, ?_⟩
  · show (blame .ruleFailed _ (runRules ⟨s.log.nextIndex, action, pos⟩ (setup.registry.rules.map StepRule.notingCalls))).run
      ((s.record setup.verbose action pos).beside calls) = _
    have hrecord : (record setup action pos).run s = (blame .ruleFailed (fun _ => some pos)
        (runRules ⟨s.log.nextIndex, action, pos⟩ setup.registry.rules)).run (s.record setup.verbose action pos) := rfl
    rw [hrecord, blame_run, blame_run, hmore]
    obtain ⟨(_ | _ | _) | _, t⟩ :=
      (runRules ⟨s.log.nextIndex, action, pos⟩ setup.registry.rules).run (s.record setup.verbose action pos) <;> rfl
  · generalize (record setup action pos).run s = r at hlog
    have hdue : setup.registry.schedule r.2.log.toList = setup.registry.schedule s.log.toList ++
        (setup.registry.rules.filter (·.every ∣ s.log.nextIndex)).map fun rule =>
          (rule, s.log.nextIndex, action, some pos) := by
      rw [hlog, State.record, Log.toList_record, Registry.schedule_append]
      simp [Registry.schedule, Registry.dueAt, hs.started]
    refine ⟨?_, ?_, fun hall => ?_⟩
    · rw [hlog]
      exact Nat.succ_pos _
    · rw [hdue, List.map_append]
      exact hs.among.append hamong
    · obtain ⟨hearlier, hlater⟩ := List.forall_mem_append.mp hall
      rw [hdue, List.map_append, hs.kept hearlier, hkept hlater]

end

/-! ## Lines -/

namespace Lockstep

variable {C : Lockstep ω ω'}

theorem Outcome.withRules {r : Except Failure α × State ω} {r' : Except Failure α × State ω'} (h : C.Outcome r r')
    (rules : List (StepRule ω')) : (C.withRules rules).Outcome r r' := by
  cases h with
  | ok ht => exact .ok ht
  | error ht => exact .error ht
  | excused ht => exact .excused ht

theorem Performs.withRules (h : C.Performs) (rules : List (StepRule ω')) : (C.withRules rules).Performs where
  limits := h.limits
  elementary := h.elementary
  functions := h.functions.imp fun _ _ hf => ⟨hf.name, hf.arity, fun args pos s s' hs => (hf.run args pos s s' hs).withRules rules⟩
  raised := h.raised
  limit := h.limit
  endless := h.endless
  names := h.names
  elements serial indices pos s s' hs := (h.elements serial indices pos s s' hs).withRules rules
  marks := h.marks
  program := h.program
  environment := h.environment
  output text s s' hs := (h.output text s s' hs).withRules rules
  delivered text s s' hs := (h.delivered text s s' hs).withRules rules

end Lockstep

section
variable {setup : Setup ω} (h : setup.LeavesLog)

abbrev Lockstep.onSchedule (setup : Setup ω) : Lockstep ω (ω × List (RuleCall ω)) :=
  .noted setup setup.notingCalls (State.OnSchedule setup.registry) fun _ => State.OnSchedule setup.registry

include h

open Lockstep in
theorem carries_notingCalls : (onSchedule setup).Carries where
  toPerforms := by
    have hperforms : (noted setup (setup.beside fun _ calls => calls) (State.OnSchedule setup.registry)
        fun _ => State.OnSchedule setup.registry).Performs := by
      refine noted_performs (List.forall_mem_nil _) (fun calls => ?_) (fun text calls => ?_) (fun _ _ _ _ hs => hs.of_log rfl)
        (fun _ _ _ hs => hs.of_log rfl) (fun _ _ _ _ hs _ => hs.of_log rfl) fun _ _ _ _ _ hs _ => hs
      · exact
          { functions := fun g hg args pos => (h.functions g hg args pos).stays .of_log
            raised := fun _ _ _ hs => hs
            limit := fun _ hs => hs
            endless := fun _ hs => hs
            marks := fun _ hs => hs.of_log rfl }
      · exact (notify_leavesLog h (.output text)).stays .of_log
    exact hperforms.withRules _
  notify notice _ := by
    show (onSchedule setup).Agree (notify setup notice) (notify (setup.beside fun _ calls => calls) notice)
    rw [notify_beside _ _ (List.forall_mem_nil _)]
    exact noted_agree fun calls => (notify_leavesLog h notice).stays .of_log
  file := rfl
  lineNumber := by
    rintro s _ ⟨calls, rfl, hs⟩
    rfl
  unread _ _ _ hs := hs
  record action pos := by
    rintro s _ ⟨calls, rfl, hs⟩
    obtain ⟨calls', hrecord, hs'⟩ := record_notingCalls h action pos hs
    show (onSchedule setup).Outcome ((record setup action pos).run s) ((record setup.notingCalls action pos).run (s.beside calls))
    rw [hrecord]
    generalize (record setup action pos).run s = r at hs'
    obtain ⟨_ | _, t⟩ := r
    · exact .error ⟨calls', rfl, hs'⟩
    · exact .ok ⟨calls', rfl, hs'⟩
  pushFrame _ _ := agree_modify <| by
    rintro s _ ⟨calls, rfl, hs⟩
    exact ⟨calls, rfl, hs.of_log rfl⟩
  popFrame := agree_modify <| by
    rintro s _ ⟨calls, rfl, hs⟩
    exact ⟨calls, rfl, hs.of_log rfl⟩
  store _ _ := by
    rintro s _ ⟨calls, rfl, hs⟩
    exact ⟨calls, rfl, hs.of_log rfl⟩

theorem settle_leavesLog (f : Failure) (s : State ω) : (settle setup f s).2.log = s.log := by
  rcases settle_cases setup f s with ⟨-, hsettle⟩ | ⟨-, hsettle⟩
  · rw [hsettle, report_state]
    exact notify_leavesLog h _ s
  · rw [hsettle]

/-- **Lines** stay on schedule, however they end. -/
theorem evaluateLine_notingCalls (text : String) {s : State ω} {calls : List (RuleCall ω)}
    (hs : s.OnSchedule setup.registry calls) :
    ∃ calls', evaluateLine setup.notingCalls text (s.beside calls) =
        ((evaluateLine setup text s).1, (evaluateLine setup text s).2.beside calls') ∧
      (evaluateLine setup text s).2.OnSchedule setup.registry calls' := by
  have hnext : State.OnSchedule setup.registry { s with lineNumber := s.lineNumber + 1, frames := [.top] } calls := hs.of_log rfl
  have ho := Lockstep.runText_agree (carries_notingCalls h) text _ _ ⟨calls, rfl, hnext⟩
  change (Lockstep.onSchedule setup).Outcome ((runText setup text).run _) ((runText setup.notingCalls text).run _) at ho
  rw [evaluateLine, evaluateLine]
  dsimp only [State.beside] at ho ⊢
  generalize (runText setup text).run { s with lineNumber := s.lineNumber + 1, frames := [.top] } = r at ho ⊢
  generalize (runText setup.notingCalls text).run _ = r' at ho ⊢
  cases ho with
  | ok ht =>
    obtain ⟨calls', rfl, ht⟩ := ht
    exact ⟨calls', rfl, ht⟩
  | @error f t _ ht =>
    obtain ⟨calls', rfl, ht⟩ := ht
    refine ⟨calls', ?_, ht.of_log (settle_leavesLog h f t)⟩
    -- handlers are told of errors, and rules are not
    have hsettle : settle setup.notingCalls f (t.beside calls') = ((settle setup f t).1, (settle setup f t).2.beside calls') :=
      settle_beside setup (fun _ calls => calls) (List.forall_mem_nil _) f t calls'
    dsimp only [State.beside] at hsettle ⊢
    rw [hsettle]
  | excused ht => exact ht.elim

theorem evaluateLines_notingCalls (ls : List String) {s : State ω} {calls : List (RuleCall ω)}
    (hs : s.OnSchedule setup.registry calls) :
    ∃ calls', evaluateLines setup.notingCalls ls (s.beside calls) =
        ((evaluateLines setup ls s).1, (evaluateLines setup ls s).2.beside calls') ∧
      (evaluateLines setup ls s).2.OnSchedule setup.registry calls' := by
  induction ls generalizing s calls with
  | nil => exact ⟨calls, rfl, hs⟩
  | cons l ls ih =>
    obtain ⟨calls', hline, hs'⟩ := evaluateLine_notingCalls h l hs
    obtain ⟨calls'', hlines, hs''⟩ := ih hs'
    refine ⟨calls'', ?_, hs''⟩
    rw [evaluateLines, hline]
    dsimp only
    rw [hlines]
    rfl

end

/-- **Schedules**, when what is registered leaves the log alone, and so evaluates no lines by itself. After any run the calls
of rules are among those that the log has made due, in its order, and they are all of these, each made once, if no rule has
failed. What a call tells a rule is what its entry says. -/
theorem rules_on_schedule {setup : Setup ω} (h : setup.LeavesLog) (world : ω) (ls : List String) :
    let s := (evaluateLines setup ls (setup.start world)).2
    ∃ calls : List (RuleCall ω),
      evaluateLines setup.notingCalls ls ((setup.start world).beside []) =
        ((evaluateLines setup ls (setup.start world)).1, s.beside calls) ∧
      (calls.map RuleCall.appointment).Sublist (setup.registry.schedule s.log.toList) ∧
      ((∀ c ∈ calls, c.result = .ok ()) → calls.map RuleCall.appointment = setup.registry.schedule s.log.toList) := by
  intro s
  have hstart : (setup.start world).OnSchedule setup.registry [] := by
    have hseed : (setup.start world).log.toList = [⟨0, none, .seed, none, none, none⟩] := rfl
    have hnone : setup.registry.schedule (setup.start world).log.toList = [] := by
      simp [hseed, Registry.schedule, Registry.dueAt]
    exact ⟨Nat.one_pos, by rw [hnone]; exact .slnil, fun _ => hnone.symm⟩
  obtain ⟨calls, hlines, hs⟩ := evaluateLines_notingCalls h ls hstart
  exact ⟨calls, hlines, hs.among, hs.kept⟩

/-- Two rules that are due at every entry: one does something at the first entry after the seed, and the other one writes
entries down. -/
def Setup.showing (first : Run String Unit) : Setup String :=
  { Setup.plain with registry.rules :=
      [⟨"first", 1, Nat.one_pos, "", fun notice => if notice.index = 1 then first else pure ()⟩,
        ⟨"show", 1, Nat.one_pos, "", fun notice =>
          modify fun s => { s with world := s.world ++ "show " ++ toString notice.index ++ "\n" }⟩] }

def Setup.showingInside : Setup String :=
  .showing fun s => (.ok (), (evaluateLine (.showing (pure ())) "Type 2." s).2)

/-- Rules return, but one of them makes the second entry before the other is called for the first one. -/
theorem rules_on_schedule_fails :
    let setup := Setup.showingInside
    let r := evaluateLine setup "Type 1." (setup.start "")
    (∀ rule ∈ setup.registry.rules, ∀ notice s, ∃ t, (rule.run notice).run s = (.ok (), t)) ∧ r.1 = none ∧
      r.2.log.toList.map (fun e => (e.index, e.action.label)) = [(0, "SEED"), (1, "Type"), (2, "Type")] ∧
      r.2.world = "show 2\n2\nshow 1\n1\n" := by
  intro setup r
  refine ⟨fun rule hrule notice s => ?_, by decide +kernel, by decide +kernel, by decide +kernel⟩
  simp only [setup, Setup.showingInside, Setup.showing, List.mem_cons, List.not_mem_nil, or_false] at hrule
  rcases hrule with rfl | rfl
  · dsimp only
    split <;> exact ⟨_, rfl⟩
  · exact ⟨_, rfl⟩

def Setup.ticking : Setup String :=
  let rule (name : String) (every : Nat) (h : 0 < every) : StepRule String :=
    ⟨name, every, h, "", fun _ => modify fun s => { s with world := s.world ++ name }⟩
  let setup := Setup.failingAt "1"
  { setup with registry := { setup.registry with rules := [rule "b" 2 Nat.two_pos, rule "a" 3 (by decide)] } }

theorem Setup.ticking_leavesLog : Setup.ticking.LeavesLog where
  functions := List.forall_mem_nil _
  handlers g hg notice s := by
    obtain ⟨w, hw⟩ := (Setup.failingAt_handsOff "1").handlers g hg notice s
    rw [hw]
  rules := by
    intro r hr notice s
    simp only [Setup.ticking, List.mem_cons, List.not_mem_nil, or_false] at hr
    rcases hr with rfl | rfl <;> rfl

theorem RuleCall.results_ok {calls : List (RuleCall ω)} (h : calls.all (·.result.toBool) = true) :
    ∀ c ∈ calls, c.result = .ok () := by
  intro c hc
  have hresult := List.all_eq_true.mp h c hc
  cases hr : c.result with
  | ok => rfl
  | error f =>
    rw [hr] at hresult
    cases hresult

/-- A step that is run by a step fails in its second round; later lines fail, do nothing, and change a name. -/
theorem rules_on_schedule_failing :
    let setup := Setup.ticking
    let ls := ["1.1 Do part 2 for i = 3, 1.", "2.1 Type i.", "Do step 1.1.", "Type y.", "Set i = 2 if i = 3.", "Set i = 7."]
    setup.LeavesLog ∧ (evaluateLines setup ls (setup.start "")).1.length = 2 ∧
      ∃ calls : List (RuleCall String), (∀ c ∈ calls, c.result = .ok ()) ∧
        (evaluateLines setup.notingCalls ls ((setup.start "").beside [])).2.world.2 = calls ∧
        (calls.map RuleCall.appointment).map (fun (rule, index, action, pos) =>
            (rule.name, index, action.label, pos.map fun p => (p.line, p.column))) =
          [("b", 2, "StoredCommand", some (2, 1)), ("a", 3, "Do", some (3, 1)), ("b", 4, "Do", some (1, 5)),
            ("b", 6, "Type", some (2, 5)), ("a", 6, "Type", some (2, 5)), ("b", 8, "Set", some (5, 1)),
            ("a", 9, "Set", some (6, 1))] := by
  intro setup ls
  obtain ⟨calls, hlines, -, hkept⟩ := rules_on_schedule Setup.ticking_leavesLog "" ls
  have hcalls : (evaluateLines setup.notingCalls ls ((setup.start "").beside [])).2.world.2 = calls := by
    rw [hlines]
    rfl
  have hreturned : (evaluateLines setup.notingCalls ls ((setup.start "").beside [])).2.world.2.all (·.result.toBool) = true := by
    decide +kernel
  rw [hcalls] at hreturned
  have hresults := RuleCall.results_ok hreturned
  refine ⟨Setup.ticking_leavesLog, ?_, calls, hresults, hcalls, ?_⟩
  · decide +kernel
  · rw [hkept hresults]
    decide +kernel

end JossLang
