import JossLang.Proofs.Chronicle

/-!
# Told sessions

A session does as it does without a chronicle, and its log and its frames account for what the chronicle notes
(`tellLine_told`). If handlers and rules return, the handlers are told of the starts and the ends of commands in the
way in which these run one another.
-/

namespace JossLang

open Comparison (stepRunner)

variable {ω : Type}

structure Setup.HooksReturn (setup : Setup ω) : Prop where
  handlers : ∀ h ∈ setup.registry.handlers, ∀ notice s, ∃ t, (h.run notice).run s = (.ok (), t)
  rules : ∀ r ∈ setup.registry.rules, ∀ notice s, ∃ t, (r.run notice).run s = (.ok (), t)

section
variable {setup : Setup ω} (h : setup.HooksReturn)
include h

theorem Setup.HooksReturn.notify (notice : Notice) (s : State ω) : ∃ t, (notify setup notice).run s = (.ok (), t) :=
  notify_of_returns notice (fun g hg _ => h.handlers g hg notice) s

theorem Setup.HooksReturn.record (action : Action) (pos : Location) (s : State ω) :
    ∃ t, (JossLang.record setup action pos).run s = (.ok (), t) := by
  have hstays : Stays (fun _ => True) (fun _ _ => False) (JossLang.record setup action pos) := by
    refine stays_record (fun _ _ _ _ hf => hf) (fun r hr notice => stays_of_failures fun s f t hrun => ?_) fun _ _ => trivial
    obtain ⟨u, hu⟩ := h.rules r hr notice s
    cases hu.symm.trans hrun
  have hend := hstays s trivial
  generalize (JossLang.record setup action pos).run s = r at hend ⊢
  cases hend with
  | @ok _ t => exact ⟨t, rfl⟩
  | error ht => exact ht.elim

end

/-! ## Deeds of a line -/

/-- The calls are under way, and all that was done since the start of a line is accounted for. -/
structure State.Underway (setup : Setup ω) (s₀ : State ω) (calls : List Call) (s : State ω) (deeds : Chronicle ω) : Prop where
  account : s₀.Account setup.verbose s deeds
  stack : s.OnStack calls calls
  tells : deeds.Tells s₀.log calls

/-- A step found no room. Its frame is on top of those of the calls, and nothing was logged under it. -/
structure State.Crowded (setup : Setup ω) (s₀ : State ω) (calls : List Call) (s : State ω) (deeds : Chronicle ω) : Prop where
  framed : setup.limits.framed
  tells : deeds.Tells s₀.log calls
  stack : ∃ x, s.OnStack (x :: calls) calls ∧ s₀.frameCount ≤ x.frame.number ∧ ∀ d ∈ deeds.starts, d.frame < x.frame.number

structure State.Halted (setup : Setup ω) (s₀ : State ω) (f : Failure) (s : State ω) (deeds : Chronicle ω) : Prop where
  account : s₀.Account setup.verbose s deeds
  underway : setup.HooksReturn → ∃ calls, s₀.Underway setup calls s deeds ∨ f = .limit ∧ s₀.Crowded setup calls s deeds

structure State.Concluded (setup : Setup ω) (s₀ : State ω) (c : Call) (cs : List Call) (s : State ω) (deeds : Chronicle ω) :
    Prop where
  account : s₀.Account setup.verbose s deeds
  stack : s.OnStack (c :: cs) (c :: cs)
  tells : deeds.Tells s₀.log cs

section
variable {setup : Setup ω} {s₀ s t : State ω} {deeds : Chronicle ω} {c : Call} {cs calls : List Call}

theorem State.Underway.samePlace (h : s₀.Underway setup calls s deeds) (ht : s.SamePlace t) : s₀.Underway setup calls t deeds :=
  ⟨h.account.samePlace ht, h.stack.samePlace ht, h.tells⟩

theorem State.Underway.halted (h : s₀.Underway setup calls s deeds) (f : Failure) : s₀.Halted setup f s deeds :=
  ⟨h.account, fun _ => ⟨calls, .inl h⟩⟩

theorem State.Underway.crowded (h : s₀.Underway setup calls s deeds) (hframed : setup.limits.framed) (step : Step)
    (pos : Location) :
    s₀.Crowded setup calls (s.enter step pos) (deeds ++ [.frame ⟨s.frameCount, .step step.number, some pos⟩]) where
  framed := hframed
  tells := h.tells.frame _
  stack := by
    refine ⟨_, h.stack.enter step pos, h.account.frameCount ▸ Nat.le_add_right _ _, fun d hd => h.account.counted d ?_⟩
    simpa using hd

theorem State.Crowded.samePlace (h : s₀.Crowded setup calls s deeds) (ht : s.SamePlace t) : s₀.Crowded setup calls t deeds where
  framed := h.framed
  tells := h.tells
  stack := by
    obtain ⟨x, hstack, hx⟩ := h.stack
    exact ⟨x, hstack.samePlace ht, hx⟩

theorem State.Concluded.samePlace (h : s₀.Concluded setup c cs s deeds) (ht : s.SamePlace t) : s₀.Concluded setup c cs t deeds :=
  ⟨h.account.samePlace ht, h.stack.samePlace ht, h.tells⟩

theorem State.Account.underway (h : s₀.Account setup.verbose s deeds) (hstack : s.OnStack (c :: cs) cs)
    (htells : deeds.Tells s₀.log cs) (hindex : c.index = s.log.nextIndex) :
    s₀.Underway setup (c :: cs) (s.record setup.verbose (.command c.command.verb.label) c.command.pos)
      (deeds ++ [.start ⟨.direct c.command, c.frame.number, cs.head?.map (·.index), s⟩] ++
        [.event (.opening c.command)]) where
  account := by
    refine State.Account.event ?_ _
    refine h.start (.direct c.command) _ ?_ (hstack.counted c List.mem_cons_self)
    rw [hstack.frames]
    rfl
  stack := hstack.record hindex _
  tells := htells.opens (hindex.trans h.log.nextIndex) s

end

/-- What is said of a state and of what was done in a line, when the chronicle goes on from earlier lines. -/
def goingOn (past : Chronicle ω) (P : State ω → Chronicle ω → Prop) (s : State ω) (chronicle : Chronicle ω) : Prop :=
  ∃ deeds, chronicle = past ++ deeds ∧ P s deeds

abbrev Lockstep.told (setup : Setup ω) (past : Chronicle ω) (s₀ : State ω) (P : State ω → Chronicle ω → Prop) :
    Lockstep ω (ω × Chronicle ω) :=
  .noted setup setup.told (goingOn past P) fun f => goingOn past (s₀.Halted setup f)

section
variable {setup : Setup ω} (h : setup.KeepsPlace) (past : Chronicle ω) {s₀ : State ω}
include h

open Lockstep

omit h in
theorem underway_stays {α : Type} {m : Run ω α} (hm : KeepsPlace m) (calls : List Call) (chronicle : Chronicle ω) :
    Stays (goingOn past (s₀.Underway setup calls) · chronicle) (fun f t => goingOn past (s₀.Halted setup f) t chronicle) m := by
  rintro s ⟨deeds, rfl, hs⟩
  have ht := hs.samePlace (hm s)
  generalize m.run s = r at ht ⊢
  obtain ⟨_ | _, t⟩ := r
  · exact .error ⟨deeds, rfl, ht.halted _⟩
  · exact .ok ⟨deeds, rfl, ht⟩

theorem underway_performs (calls : List Call) : (Lockstep.told setup past s₀ (s₀.Underway setup calls)).Performs := by
  have hwatchers : ∀ w ∈ [chronicler .beforeCommand, chronicler (ω := ω) .afterCommand], w.event ≠ .output := by
    simp [chronicler]
  refine noted_performs hwatchers (fun chronicle => ?_) (fun text => underway_stays past (h.notify (.output text)) calls) ?_ ?_
    ?_ ?_
  · refine
      { functions := fun g hg args pos => underway_stays past (h.functions g hg args pos) calls chronicle
        raised := ?_
        limit := ?_
        endless := ?_
        marks := ?_ }
    · rintro _ _ s ⟨deeds, rfl, hs⟩
      exact ⟨deeds, rfl, hs.halted _⟩
    · rintro s ⟨deeds, rfl, hs⟩
      exact ⟨deeds, rfl, hs.halted _⟩
    · rintro s ⟨deeds, rfl, hs⟩
      exact ⟨deeds, rfl, hs.halted _⟩
    · rintro s ⟨deeds, rfl, hs⟩
      exact ⟨deeds, rfl, hs.samePlace ⟨rfl, rfl, rfl, rfl⟩⟩
  · rintro _ _ s _ ⟨deeds, rfl, hs⟩
    exact ⟨deeds, rfl, hs.samePlace ⟨rfl, rfl, rfl, rfl⟩⟩
  · rintro _ s _ ⟨deeds, rfl, hs⟩
    exact ⟨deeds, rfl, hs.samePlace ⟨rfl, rfl, rfl, rfl⟩⟩
  · rintro text _ s _ ⟨deeds, rfl, hs⟩ -
    have hplace : s.SamePlace { s with world := (setup.sink text s.world).2 } := ⟨rfl, rfl, rfl, rfl⟩
    exact ⟨deeds, rfl, (hs.samePlace hplace).halted _⟩
  · rintro _ _ _ s _ ⟨deeds, rfl, hs⟩ -
    exact ⟨deeds, rfl, hs.halted _⟩

/-! ## Commands -/

omit h in
theorem hooks_told {m : Run ω Unit} {s : State ω} {deeds : Chronicle ω} {P : State ω → Chronicle ω → Prop}
    (haccount : s₀.Account setup.verbose (m.run s).2 deeds) (hend : P (m.run s).2 deeds)
    (hreturns : setup.HooksReturn → ∃ t, m.run s = (.ok (), t)) :
    (Lockstep.told setup past s₀ P).Outcome (m.run s) ((Run.beside m).run (s.beside (past ++ deeds))) := by
  refine noted_outcome ?_
  generalize m.run s = r at haccount hend hreturns ⊢
  obtain ⟨f | _, t⟩ := r
  · refine .error ⟨deeds, rfl, haccount, fun hreturn => ?_⟩
    obtain ⟨_, ht⟩ := hreturns hreturn
    cases ht
  · exact .ok ⟨deeds, rfl, hend⟩

theorem record_told {s : State ω} {deeds : Chronicle ω} {line : Line}
    (haccount : s₀.Account setup.verbose (s.record setup.verbose line.action line.pos) deeds) :
    (Lockstep.told setup past s₀ fun t ds => ds = deeds ∧ (s.record setup.verbose line.action line.pos).SamePlace t).Outcome
      ((record setup line.action line.pos).run s)
      ((record setup.told line.action line.pos).run (s.beside (past ++ deeds))) := by
  have hplace := record_samePlace h line.action line.pos s
  rw [record_beside]
  exact hooks_told past (haccount.samePlace hplace) ⟨rfl, hplace⟩ fun hreturn => hreturn.record line.action line.pos s

theorem closing_told {c : Call} {cs : List Call} {s : State ω} {deeds : Chronicle ω}
    (hs : s₀.Underway setup (c :: cs) s deeds) :
    (Lockstep.told setup past s₀ (s₀.Concluded setup c cs)).Outcome ((notify setup (.afterCommand c.command)).run s)
      ((notify setup.told (.afterCommand c.command)).run (s.beside (past ++ deeds))) := by
  have hconcluded : s₀.Concluded setup c cs s (deeds ++ [.event (.closing c.command)]) :=
    ⟨hs.account.event _, hs.stack, hs.tells.closes⟩
  have ht := hconcluded.samePlace (h.notify (.afterCommand c.command) s)
  rw [setup.told_notify, List.append_assoc]
  exact hooks_told past ht.account ht fun hreturn => hreturn.notify (.afterCommand c.command) s

theorem command_told_of_steps {r : StepRunner ω} {r' : Nat → StepRunner (ω × Chronicle ω)} {c : Call} {cs : List Call}
    (hr : ∀ step pos, (Lockstep.told setup past s₀ (s₀.Underway setup (c :: cs))).Agree (r step pos) (r' c.index step pos))
    {s : State ω} {deeds : Chronicle ω} (haccount : s₀.Account setup.verbose s deeds) (hstack : s.OnStack (c :: cs) cs)
    (htells : deeds.Tells s₀.log cs) (hindex : c.index = s.log.nextIndex) :
    (Lockstep.told setup past s₀ (s₀.Concluded setup c cs)).Outcome ((c.command.runWith setup r).run s)
      ((c.command.tellWith setup r' c.frame.number (cs.head?.map (·.index))).run (s.beside (past ++ deeds))) := by
  have hC : (Lockstep.told setup past s₀ (s₀.Underway setup (c :: cs))).Performs := underway_performs h past (c :: cs)
  -- the call counts as under way from its entry on, and the handlers hear of its start only after the rules
  have hopened := haccount.underway hstack htells hindex
  have hlogged : s₀.Account setup.verbose (s.record setup.verbose (Line.direct c.command).action (Line.direct c.command).pos)
      (deeds ++ [.start ⟨.direct c.command, c.frame.number, cs.head?.map (·.index), s⟩]) := by
    refine haccount.start _ _ ?_ (hstack.counted c List.mem_cons_self)
    rw [hstack.frames]
    rfl
  have hrecord := record_told h past hlogged
  unfold Command.runWith Command.tellWith
  rw [get_bind_run]
  dsimp only
  rw [tell_bind_run, List.append_assoc]
  refine noted_bind hrecord fun _ t chronicle ht => ?_
  obtain ⟨_, rfl, rfl, hplace⟩ := ht
  have hbefore : (Lockstep.told setup past s₀ (s₀.Underway setup (c :: cs))).Outcome
      ((notify setup (.beforeCommand c.command)).run t) ((notify setup.told (.beforeCommand c.command)).run
        (t.beside (past ++ (deeds ++ [.start ⟨.direct c.command, c.frame.number, cs.head?.map (·.index), s⟩])))) := by
    rw [setup.told_notify, List.append_assoc]
    exact noted_outcome (underway_stays past (h.notify _) (c :: cs) _ t ⟨_, rfl, hopened.samePlace hplace⟩)
  refine noted_bind hbefore fun _ u chronicle hu => ?_
  have hguard : (Lockstep.told setup past s₀ (s₀.Underway setup (c :: cs))).Outcome ((guardHolds setup c.command.guard).run u)
      ((guardHolds setup.told c.command.guard).run (u.beside chronicle)) :=
    agree_guardHolds hC c.command.guard u _ ⟨chronicle, rfl, hu⟩
  refine noted_bind hguard fun holds v chronicle hv => ?_
  have hclosing : ∀ w chronicle, goingOn past (s₀.Underway setup (c :: cs)) w chronicle →
      (Lockstep.told setup past s₀ (s₀.Concluded setup c cs)).Outcome ((notify setup (.afterCommand c.command)).run w)
        ((notify setup.told (.afterCommand c.command)).run (w.beside chronicle)) := by
    rintro w _ ⟨ds, rfl, hw⟩
    exact closing_told h past hw
  -- the end is told of whether or not the verb was run
  by_cases hholds : holds = true
  · rw [if_pos hholds, if_pos hholds]
    have hverb : (Lockstep.told setup past s₀ (s₀.Underway setup (c :: cs))).Outcome ((c.command.verb.run setup r).run v)
        ((c.command.verb.run setup.told (r' c.index)).run (v.beside chronicle)) :=
      agree_verb hC c.command.verb (fun pos _ _ _ _ _ _ _ _ step _ => hr step pos) v _ ⟨chronicle, rfl, hv⟩
    rw [hindex] at hverb
    exact noted_bind hverb fun _ => hclosing
  · rw [if_neg hholds, if_neg hholds]
    exact hclosing v chronicle hv

omit h in
theorem tellStep_run (d i : Nat) (step : Step) (pos : Location) (s : State ω) (chronicle : Chronicle ω) :
    (tellStep setup (d + 1) i step pos).run (s.beside chronicle) =
      (step.command.tellWith setup (tellStep setup d) s.frameCount (some i) >>= fun _ => popFrame).run
        ((s.enter step pos).beside (chronicle ++ [.frame ⟨s.frameCount, .step step.number, some pos⟩])) := by
  rw [tellStep]
  rfl

omit h in
/-- A step that there is no room for leaves at most its frame. -/
theorem step_told_zero {c : Call} {cs : List Call} (step : Step) (pos : Location) :
    (Lockstep.told setup past s₀ (s₀.Underway setup (c :: cs))).Agree (stepRunner setup 0 step pos)
      (tellStep setup 0 c.index step pos) := by
  rintro s _ ⟨_, rfl, deeds, rfl, hs⟩
  rw [stepRunner, tellStep]
  by_cases hframed : setup.limits.framed = true
  · simp only [if_pos hframed]
    rw [tellFrame_bind_run, List.append_assoc]
    exact .error ⟨_, rfl, _, rfl, hs.account.enter step pos, fun _ => ⟨c :: cs, .inr ⟨rfl, hs.crowded hframed step pos⟩⟩⟩
  · simp only [if_neg hframed]
    exact .error ⟨_, rfl, deeds, rfl, hs.halted _⟩

omit h in
theorem stepRunner_succ_run (d : Nat) (step : Step) (pos : Location) (s : State ω) :
    (stepRunner setup (d + 1) step pos).run s = (step.command.run setup d >>= fun _ => popFrame).run (s.enter step pos) := rfl

omit h in
theorem step_told_of_command {d : Nat} {c : Call} {cs : List Call}
    (hcommand : ∀ (x : Call) (s : State ω) (deeds : Chronicle ω), s₀.Account setup.verbose s deeds →
      s.OnStack (x :: c :: cs) (c :: cs) → deeds.Tells s₀.log (c :: cs) → x.index = s.log.nextIndex →
      (Lockstep.told setup past s₀ (s₀.Concluded setup x (c :: cs))).Outcome ((x.command.run setup d).run s)
        ((x.command.tellWith setup (tellStep setup d) x.frame.number (some c.index)).run (s.beside (past ++ deeds))))
    (step : Step) (pos : Location) : (Lockstep.told setup past s₀ (s₀.Underway setup (c :: cs))).Agree
      (stepRunner setup (d + 1) step pos) (tellStep setup (d + 1) c.index step pos) := by
  rintro s _ ⟨_, rfl, deeds, rfl, hs⟩
  have hstep := hcommand _ _ _ (hs.account.enter step pos) (hs.stack.enter step pos) (hs.tells.frame _) rfl
  rw [← List.append_assoc] at hstep
  rw [stepRunner_succ_run, tellStep_run]
  refine noted_bind hstep fun _ t chronicle ht => ?_
  obtain ⟨ds, rfl, ht⟩ := ht
  exact .ok ⟨past ++ ds, rfl, ds, rfl, ⟨ht.account.log, ht.account.frames, ht.account.frameCount, ht.account.counted⟩,
    ht.stack.leave, ht.tells⟩

/-- **Commands** that are about to be logged are told of with all that they run. -/
theorem command_told : ∀ (d : Nat) (c : Call) (cs : List Call) (s : State ω) (deeds : Chronicle ω),
    s₀.Account setup.verbose s deeds → s.OnStack (c :: cs) cs → deeds.Tells s₀.log cs → c.index = s.log.nextIndex →
      (Lockstep.told setup past s₀ (s₀.Concluded setup c cs)).Outcome ((c.command.run setup d).run s)
        ((c.command.tellWith setup (tellStep setup d) c.frame.number (cs.head?.map (·.index))).run
          (s.beside (past ++ deeds)))
  | 0, c, cs, s, deeds, haccount, hstack, htells, hindex => by
    rw [Command.run_eq_runWith]
    exact command_told_of_steps h past (step_told_zero past) haccount hstack htells hindex
  | d + 1, c, cs, s, deeds, haccount, hstack, htells, hindex => by
    rw [Command.run_eq_runWith]
    refine command_told_of_steps h past (step_told_of_command past fun x => ?_) haccount hstack htells hindex
    exact command_told d x (c :: cs)

end

/-! ## Lines -/

structure State.Finished (setup : Setup ω) (s₀ : State ω) (read : Except ParseError Line) (s : State ω)
    (deeds : Chronicle ω) : Prop where
  account : s₀.Account setup.verbose s deeds
  direct : ∀ c, read = .ok (.direct c) → deeds.Tells s₀.log []
  stored : ∀ pos number c, read = .ok (.stored pos number c) →
    deeds.events = [] ∧ deeds.starts.map (·.line) = [.stored pos number c]

structure State.Stopped (setup : Setup ω) (s₀ : State ω) (read : Except ParseError Line) (f : Failure) (s : State ω)
    (deeds : Chronicle ω) : Prop where
  account : s₀.Account setup.verbose s deeds
  underway : setup.HooksReturn → ∀ line, read = .ok line →
    ∃ calls, s₀.Underway setup calls s deeds ∨ f = .limit ∧ s₀.Crowded setup calls s deeds

theorem State.Stopped.samePlace {setup : Setup ω} {s₀ s t : State ω} {read : Except ParseError Line} {f : Failure}
    {deeds : Chronicle ω} (h : s₀.Stopped setup read f s deeds) (ht : s.SamePlace t) : s₀.Stopped setup read f t deeds where
  account := h.account.samePlace ht
  underway hreturn line hline := by
    obtain ⟨calls, hcalls⟩ := h.underway hreturn line hline
    exact ⟨calls, hcalls.imp (·.samePlace ht) fun hlimit => ⟨hlimit.1, hlimit.2.samePlace ht⟩⟩

section
variable {setup : Setup ω} (h : setup.KeepsPlace) (past : Chronicle ω)
include h

open Lockstep

abbrev Lockstep.toldLine (setup : Setup ω) (past : Chronicle ω) (s₀ : State ω) (read : Except ParseError Line) :
    Lockstep ω (ω × Chronicle ω) :=
  .noted setup setup.told (goingOn past (s₀.Finished setup read)) fun f => goingOn past (s₀.Stopped setup read f)

theorem line_told {s₀ s : State ω} (hplace : s₀.SamePlace s) (hframes : s.frames = [.top]) (hcount : 0 < s.frameCount)
    (line : Line) : (Lockstep.toldLine setup past s₀ (.ok line)).Outcome ((line.run setup).run s)
      ((line.tell setup).run (s.beside past)) := by
  have haccount : s₀.Account setup.verbose s [] := (State.Account.refl s₀).samePlace hplace
  cases line with
  | direct c =>
    have hstack : s.OnStack [⟨.top, c, s.log.nextIndex⟩] [] :=
      { frames := hframes
        sorted := List.pairwise_singleton _ _
        counted := List.forall_mem_singleton.mpr hcount
        shows := List.forall_mem_nil _ }
    have ho := command_told h past setup.limits.steps _ [] s [] haccount hstack (.nil _) rfl
    rw [List.append_nil] at ho
    refine noted_mono ho ?_ ?_
    · rintro t _ ⟨deeds, rfl, ht⟩
      refine ⟨deeds, rfl, ht.account, fun _ _ => ht.tells, ?_⟩
      rintro _ _ _ ⟨⟩
    · rintro _ t _ ⟨deeds, rfl, ht⟩
      exact ⟨deeds, rfl, ht.account, fun hreturn _ _ => ht.underway hreturn⟩
  | stored pos number c =>
    have hframe : s.frames.head?.map (·.number) = some Frame.top.number := by rw [hframes]; rfl
    have hstart := haccount.start (.stored pos number c) none hframe hcount
    have hrecord := record_told h past hstart
    rw [Line.run, Line.tell, tell_bind_run]
    refine noted_bind (noted_mono hrecord (fun _ _ ht => ht) ?_) fun _ t chronicle ht => ?_
    · rintro _ t _ ⟨deeds, rfl, ht⟩
      exact ⟨deeds, rfl, ht.account, fun hreturn _ _ => ht.underway hreturn⟩
    · obtain ⟨_, rfl, rfl, ht⟩ := ht
      refine .ok ⟨_, rfl, _, rfl, (hstart.samePlace ht).samePlace ⟨rfl, rfl, rfl, rfl⟩, ?_, ?_⟩
      · rintro _ ⟨⟩
      · rintro _ _ _ ⟨⟩
        exact ⟨rfl, rfl⟩

theorem text_told {s : State ω} (hframes : s.frames = [.top]) (hcount : 0 < s.frameCount) (text : String) :
    (Lockstep.toldLine setup past s (Line.parse ⟨setup.file, s.lineNumber, text.toList⟩)).Outcome ((runText setup text).run s)
      ((tellText setup text).run (s.beside past)) := by
  have hplace := h.notify (.lineStart text) s
  have hreturns : setup.HooksReturn → ∃ t, (notify setup (.lineStart text)).run s = (.ok (), t) :=
    fun hreturn => hreturn.notify (.lineStart text) s
  have htold : (notify setup.told (.lineStart text)).run (s.beside past) =
      (Run.beside (notify setup (.lineStart text))).run (s.beside past) := by
    rw [setup.told_notify]
    exact congrArg (fun deeds => (Run.beside (notify setup (.lineStart text))).run (s.beside deeds)) (List.append_nil past)
  rw [runText, tellText, run_bind, run_bind, htold, Run.beside_run]
  generalize (notify setup (.lineStart text)).run s = r at hplace hreturns ⊢
  obtain ⟨f | _, t⟩ := r
  · refine .error ⟨past, rfl, [], (List.append_nil past).symm, (State.Account.refl s).samePlace hplace, fun hreturn => ?_⟩
    obtain ⟨_, ht⟩ := hreturns hreturn
    cases ht
  · dsimp only
    have hbeside : (t.beside past).lineNumber = s.lineNumber := hplace.lineNumber
    rw [get_bind_run, get_bind_run, hbeside, hplace.lineNumber]
    cases hread : Line.parse ⟨setup.file, s.lineNumber, text.toList⟩ with
    | ok line => exact line_told h past hplace (hplace.frames.trans hframes) (hplace.frameCount ▸ hcount) line
    | error e =>
      refine .error ⟨past, rfl, [], (List.append_nil past).symm, (State.Account.refl s).samePlace hplace, fun _ => ?_⟩
      rintro _ ⟨⟩

omit h in
theorem tellLine_run (text : String) (s : State ω) (past : Chronicle ω) :
    tellLine setup text (s.beside past) = match (tellText setup text).run (s.nextLine.beside past) with
      | (.ok _, t) => (none, t)
      | (.error f, t) => (some (settle setup.told f t).1, (settle setup.told f t).2) := rfl

/-- **Lines** do as they do when they are told of, and what was done is accounted for. -/
theorem tellLine_told {s : State ω} (hcount : 0 < s.frameCount) (text : String) :
    ∃ deeds, tellLine setup text (s.beside past) =
        ((evaluateLine setup text s).1, (evaluateLine setup text s).2.beside (past ++ deeds)) ∧
      ((evaluateLine setup text s).1 = none →
        s.nextLine.Finished setup (Line.parse ⟨setup.file, (s.lineNumber + 1 : Nat), text.toList⟩)
        (evaluateLine setup text s).2 deeds) ∧
      ∀ e, (evaluateLine setup text s).1 = some e →
        ∃ f, s.nextLine.Stopped setup (Line.parse ⟨setup.file, (s.lineNumber + 1 : Nat), text.toList⟩) f
            (evaluateLine setup text s).2 deeds ∧
          (f = .limit → e = internalError (evaluateLine setup text s).2 .limitReached) := by
  have ho := text_told h past (s := s.nextLine) rfl hcount text
  rw [evaluateLine_nextLine, tellLine_run]
  have hnumber : s.nextLine.lineNumber = s.lineNumber + 1 := rfl
  rw [hnumber] at ho
  generalize Line.parse ⟨setup.file, (s.lineNumber + 1 : Nat), text.toList⟩ = read at ho ⊢
  generalize (runText setup text).run s.nextLine = r at ho ⊢
  generalize (tellText setup text).run (s.nextLine.beside past) = r' at ho ⊢
  cases ho with
  | ok ht =>
    obtain ⟨_, rfl, deeds, rfl, ht⟩ := ht
    refine ⟨deeds, rfl, fun _ => ht, fun e he => ?_⟩
    cases he
  | @error f t _ ht =>
    obtain ⟨_, rfl, deeds, rfl, ht⟩ := ht
    have hplace := settle_samePlace h f t
    refine ⟨deeds, ?_, fun he => ?_, fun e he => ⟨f, ht.samePlace hplace, ?_⟩⟩
    · dsimp only
      rw [settle_beside _ _ (by simp [chronicler])]
    · cases he
    · rintro rfl
      exact (Option.some.inj he).symm
  | excused ht => exact ht.elim

end

end JossLang
