import JossLang.Proofs.ErrorEntries
import JossLang.Proofs.StackTraces
import JossLang.Traceback

/-!
# Where tracebacks start

A traceback starts with the frame of the session. That frame is shown at the line that failed, if the line was
admitted: the handlers of its start returned, and it was read. Otherwise nothing was logged for the line, and the
frame is shown at an earlier one (`evaluateLine_traceback`).
-/

namespace JossLang

variable {ω α : Type}

/-! ## Locations of lines -/

/-- The location is in the line of a source, and shows it. -/
structure Source.Shows (src : Source) (p : Location) : Prop where
  file : p.file = src.file
  line : p.line = src.line
  statement : p.statement = src.statement

theorem Source.shows_at (src : Source) (t : Token) : src.Shows (src.at t) := ⟨rfl, rfl, rfl⟩

theorem readCommand_shows (src : Source) : Ensures (fun _ => True) (readCommand src) fun c _ => src.Shows c.pos := by
  unfold readCommand
  refine ensures_prop.bind fun t => ensures_prop.bind fun verb => ensures_prop.bind fun guarded => ?_
  split
  · exact ensures_prop.bind fun _ => ensures_pure fun _ _ => src.shows_at t
  · exact ensures_pure fun _ _ => src.shows_at t

theorem readLine_shows (src : Source) : Ensures (fun _ => True) (readLine src) fun l _ => src.Shows l.pos := by
  unfold readLine
  refine ensures_prop.bind fun t => ?_
  split
  · exact ensures_pure fun _ _ => src.shows_at t
  · exact ensures_prop.bind fun _ => ensures_prop.bind fun _ => ensures_prop.bind fun _ => ensures_prop.bind fun _ =>
      ensures_pure fun _ _ => src.shows_at t
  · exact (readCommand_shows src).bind fun _ => ensures_prop.bind fun _ => ensures_pure fun _ => id

/-- **Reading** a line gives a command or step at a location in that line. -/
theorem Line.parse_shows {src : Source} {l : Line} (h : Line.parse src = .ok l) : src.Shows l.pos :=
  readLine_shows src (Stream.ofLine src.text) l _ trivial (Prod.ext h rfl)

/-! ## The place that a session has come to -/

structure State.SamePlace (s t : State ω) : Prop where
  log : t.log = s.log
  frames : t.frames = s.frames
  frameCount : t.frameCount = s.frameCount
  lineNumber : t.lineNumber = s.lineNumber

def KeepsPlace (m : Run ω α) : Prop := ∀ s : State ω, s.SamePlace (m.run s).2

/-- All that is registered leaves the session in its place. It may change names, steps and the world, and may fail. -/
structure Setup.KeepsPlace (setup : Setup ω) : Prop where
  functions : ∀ g ∈ setup.registry.functions, ∀ args pos, JossLang.KeepsPlace (g.run args pos)
  handlers : ∀ h ∈ setup.registry.handlers, ∀ notice, JossLang.KeepsPlace (h.run notice)
  rules : ∀ r ∈ setup.registry.rules, ∀ notice, JossLang.KeepsPlace (r.run notice)

theorem State.SamePlace.refl (s : State ω) : s.SamePlace s := ⟨rfl, rfl, rfl, rfl⟩

theorem State.SamePlace.trans {s t u : State ω} (h : s.SamePlace t) (h' : t.SamePlace u) : s.SamePlace u :=
  ⟨h'.log.trans h.log, h'.frames.trans h.frames, h'.frameCount.trans h.frameCount, h'.lineNumber.trans h.lineNumber⟩

theorem KeepsPlace.stays {m : Run ω α} (h : KeepsPlace m) (s : State ω) : Stays s.SamePlace (fun _ => s.SamePlace) m :=
  stays_of_trans .trans h s

theorem WorldOnly.keepsPlace {m : Run ω Unit} (h : WorldOnly m) : KeepsPlace m := by
  intro s
  obtain ⟨w, hw⟩ := h s
  rw [hw]
  exact ⟨rfl, rfl, rfl, rfl⟩

section
variable {setup : Setup ω} (h : setup.KeepsPlace)
include h

theorem Setup.KeepsPlace.notify (notice : Notice) : JossLang.KeepsPlace (notify setup notice) := fun s =>
  (stays_notify (fun _ _ _ _ => id) fun g hg _ => (h.handlers g hg notice).stays s).state (.refl s)

theorem record_samePlace (action : Action) (pos : Location) (s : State ω) :
    (s.record setup.verbose action pos).SamePlace ((record setup action pos).run s).2 := by
  have hrules := stays_runRules ⟨s.log.nextIndex, action, pos⟩ setup.registry.rules fun r hr =>
    (h.rules r hr _).stays (s.record setup.verbose action pos)
  exact (hrules.blame .ruleFailed (fun _ => some pos) fun _ _ => id).state (.refl _)

theorem settle_samePlace (f : Failure) (s : State ω) : s.SamePlace (settle setup f s).2 := by
  rcases settle_cases setup f s with ⟨-, hsettle⟩ | ⟨-, hsettle⟩
  · rw [hsettle, report_state]
    exact h.notify _ s
  · rw [hsettle]
    exact .refl s

end

/-! ## Lines under way -/

def Log.ShowsLine (log : Log) (src : Source) : Prop :=
  ∃ e p, log.lastOfFrame? Frame.top.number = some e ∧ e.pos = some p ∧ src.Shows p

structure State.Within (s : State ω) (src : Source) (inner : List Frame) : Prop where
  frames : s.frames = inner ++ [.top]
  frameCount : 0 < s.frameCount
  lineNumber : (s.lineNumber : Int) = src.line
  log : s.log.ShowsLine src

def State.StartsIn (s : State ω) (src : Source) : Prop := ∃ inner, s.Within src inner

namespace State

variable {s t : State ω} {src : Source} {inner : List Frame}

theorem Within.startsIn (h : s.Within src inner) : s.StartsIn src := ⟨inner, h⟩

theorem Within.samePlace (h : s.Within src inner) (ht : s.SamePlace t) : t.Within src inner where
  frames := ht.frames.trans h.frames
  frameCount := ht.frameCount ▸ h.frameCount
  lineNumber := ht.lineNumber ▸ h.lineNumber
  log := ht.log ▸ h.log

theorem StartsIn.samePlace (h : s.StartsIn src) (ht : s.SamePlace t) : t.StartsIn src := by
  obtain ⟨inner, h⟩ := h
  exact ⟨inner, h.samePlace ht⟩

theorem within_record (hframes : s.frames = [.top]) (hcount : 0 < s.frameCount) (hline : (s.lineNumber : Int) = src.line)
    (verbose : Bool) (action : Action) {pos : Location} (hpos : src.Shows pos) : (s.record verbose action pos).Within src [] where
  frames := hframes
  frameCount := hcount
  lineNumber := hline
  log := by
    refine ⟨_, pos, List.find?_cons_of_pos ?_, rfl, hpos⟩
    simp [hframes]

theorem Within.push (h : s.Within src inner) (frame : Frame) :
    State.Within { s with frames := frame :: s.frames, frameCount := s.frameCount + 1 } src (frame :: inner) where
  frames := by rw [h.frames, List.cons_append]
  frameCount := Nat.succ_pos _
  lineNumber := h.lineNumber
  log := h.log

theorem Within.enter (h : s.Within src inner) (step : Step) (caller : Location) (verbose : Bool) (action : Action)
    (pos : Location) : ((s.enter step caller).record verbose action pos).Within src
      (⟨s.frameCount, .step step.number, some caller⟩ :: inner) where
  frames := (h.push ⟨s.frameCount, .step step.number, some caller⟩).frames
  frameCount := Nat.succ_pos _
  lineNumber := h.lineNumber
  log := by
    obtain ⟨e, p, he, hp, hsrc⟩ := h.log
    refine ⟨e, p, ?_, hp, hsrc⟩
    rw [← he]
    refine List.find?_cons_of_neg ?_
    simpa [State.enter, Frame.top] using h.frameCount.ne'

theorem Within.leave {frame : Frame} (h : s.Within src (frame :: inner)) : s.leave.Within src inner where
  frames := by rw [State.leave, h.frames, List.cons_append, List.tail_cons]
  frameCount := h.frameCount
  lineNumber := h.lineNumber
  log := h.log

end State

theorem State.Within.ended {r : Except Failure α × State ω} {src : Source} {inner : List Frame} (h : r.2.Within src inner) :
    Ended (·.Within src inner) (fun _ t => t.StartsIn src) r := by
  obtain ⟨_ | _, t⟩ := r
  · exact .error h.startsIn
  · exact .ok h

theorem KeepsPlace.within {m : Run ω α} (h : KeepsPlace m) (src : Source) (inner : List Frame) :
    Stays (·.Within src inner) (fun _ t => t.StartsIn src) m := fun s hs => (hs.samePlace (h s)).ended

open Lockstep in
theorem performs_within {setup : Setup ω} (h : setup.KeepsPlace) (src : Source) (inner : List Frame) :
    (alone setup (·.Within src inner) fun _ t => t.StartsIn src).Performs where
  toLawful := Setup.Evaluates.lawful
    { functions := fun g hg args pos => (h.functions g hg args pos).within src inner
      raised := fun _ _ _ hs => hs.startsIn
      limit := fun _ hs => hs.startsIn
      endless := fun _ hs => hs.startsIn
      marks := fun _ hs => hs.samePlace ⟨rfl, rfl, rfl, rfl⟩ }
  program _ _ hs := ⟨by rw [hs.1], fun _ _ _ _ => ⟨hs.1, hs.2.startsIn⟩⟩
  environment _ _ _ _ hs := ⟨by rw [hs.1], hs.2.samePlace ⟨rfl, rfl, rfl, rfl⟩⟩
  output text := alone_agree_iff.mpr ((h.notify (.output text)).within src inner)
  delivered _ := alone_agree_iff.mpr <| stays_deliver (fun _ hs => hs.samePlace ⟨rfl, rfl, rfl, rfl⟩)
    fun _ _ hs _ => hs.startsIn.samePlace ⟨rfl, rfl, rfl, rfl⟩

section
variable {setup : Setup ω} (h : setup.KeepsPlace) {src : Source}
include h

open Comparison (stepRunner)

theorem command_within_of_steps {d : Nat} {inner : List Frame}
    (hsteps : ∀ step pos, Stays (·.Within src inner) (fun _ t => t.StartsIn src) (stepRunner setup d step pos))
    {c : Command} {u : State ω} (hu : (u.record setup.verbose (.command c.verb.label) c.pos).Within src inner) :
    Ended (·.Within src inner) (fun _ t => t.StartsIn src) ((c.run setup d).run u) := by
  have hC := performs_within h src inner
  have hguard := Lockstep.alone_agree_iff.mp (Lockstep.agree_guardHolds hC c.guard)
  have hverb := Lockstep.alone_agree_iff.mp <| Lockstep.agree_verb hC c.verb fun pos _ _ _ _ _ _ _ _ step _ =>
    Lockstep.alone_agree_iff.mpr (hsteps step pos)
  rw [Comparison.command_run]
  refine (hu.samePlace (record_samePlace h _ _ _)).ended.bind fun _ => ((h.notify _).within _ _).bind fun _ =>
    hguard.bind fun b => ?_
  split
  · exact hverb.bind fun _ => (h.notify _).within _ _
  · exact (h.notify _).within _ _

/-- **Commands** that have been logged end in the frames that they were begun in, or fail inside that of the session. -/
theorem command_within : ∀ (d : Nat) (c : Command) (inner : List Frame) (u : State ω),
    (u.record setup.verbose (.command c.verb.label) c.pos).Within src inner →
      Ended (·.Within src inner) (fun _ t => t.StartsIn src) ((c.run setup d).run u)
  | 0, _, _, _, hu => command_within_of_steps h (fun step pos s hs => by
      rw [stepRunner]
      split
      · exact .error ⟨_, hs.push ⟨s.frameCount, .step step.number, some pos⟩⟩
      · exact .error hs.startsIn) hu
  | d + 1, _, inner, _, hu => by
    -- a step has a frame of its own inside these, and its entry leaves that of the line the last of its frame
    refine command_within_of_steps h (fun step pos s hs => ?_) hu
    have hend := command_within d step.command _ (s.enter step pos) (hs.enter step pos setup.verbose _ _)
    rw [stepRunner_enter]
    generalize (step.command.run setup d).run (s.enter step pos) = r at hend
    cases hend with
    | ok ht => exact .ok ht.leave
    | error ht => exact .error ht

theorem line_startsIn {l : Line} (hl : src.Shows l.pos) {s : State ω} (hframes : s.frames = [.top]) (hcount : 0 < s.frameCount)
    (hline : (s.lineNumber : Int) = src.line) : ((l.run setup).run s).2.StartsIn src := by
  cases l with
  | direct c =>
    exact (command_within h _ c [] s (State.within_record hframes hcount hline _ _ hl)).state
      (fun _ ht => ht.startsIn) fun _ _ => id
  | stored pos number c =>
    have hrecord := (State.within_record hframes hcount hline setup.verbose (.stored number) hl).samePlace
      (record_samePlace h _ _ _)
    have hstore : KeepsPlace (modify fun s => { s with program := s.program.store number c } : Run ω Unit) :=
      fun _ => ⟨rfl, rfl, rfl, rfl⟩
    exact (hrecord.ended.bind fun _ => hstore.within _ _).state (fun _ ht => ht.startsIn) fun _ _ => id

end

/-! ## Lines that are admitted -/

def State.nextLine (s : State ω) : State ω := { s with lineNumber := s.lineNumber + 1, frames := [.top] }

theorem evaluateLine_nextLine (setup : Setup ω) (text : String) (s : State ω) :
    evaluateLine setup text s = match (runText setup text).run s.nextLine with
      | (.ok _, t) => (none, t)
      | (.error f, t) => (some (settle setup f t).1, (settle setup f t).2) := rfl

/-- In the state that a line is begun in, the handlers of its start return, and it can be read. -/
def Setup.Admits (setup : Setup ω) (text : String) (s : State ω) : Prop :=
  (∃ t, (notify setup (.lineStart text)).run s = (.ok (), t)) ∧
    ∃ l, Line.parse ⟨setup.file, s.lineNumber, text.toList⟩ = .ok l

section
variable {setup : Setup ω} (h : setup.KeepsPlace) {text : String} {s : State ω}
include h

theorem runText_startsIn (hs : setup.Admits text s) (hframes : s.frames = [.top]) (hcount : 0 < s.frameCount) :
    ((runText setup text).run s).2.StartsIn ⟨setup.file, s.lineNumber, text.toList⟩ := by
  obtain ⟨⟨t, hstart⟩, l, hl⟩ := hs
  have hplace := h.notify (.lineStart text) s
  rw [hstart] at hplace
  rw [runText_run, hstart]
  dsimp only
  rw [hplace.lineNumber, hl]
  exact line_startsIn h (Line.parse_shows hl) (hplace.frames.trans hframes) (hplace.frameCount ▸ hcount)
    (congrArg _ hplace.lineNumber)

theorem runText_samePlace (hs : ¬ setup.Admits text s) : s.SamePlace ((runText setup text).run s).2 := by
  have hplace := h.notify (.lineStart text) s
  rw [runText_run]
  cases hstart : (notify setup (.lineStart text)).run s with
  | mk result t =>
    rw [hstart] at hplace
    cases result with
    | error f => exact hplace
    | ok =>
      dsimp only
      rw [hplace.lineNumber]
      cases hl : Line.parse ⟨setup.file, s.lineNumber, text.toList⟩ with
      | error e => exact hplace
      | ok l => exact absurd ⟨⟨t, hstart⟩, l, hl⟩ hs

theorem evaluateLine_place (text : String) (s : State ω) :
    ((runText setup text).run s.nextLine).2.SamePlace (evaluateLine setup text s).2 := by
  rw [evaluateLine_nextLine]
  generalize (runText setup text).run s.nextLine = r
  obtain ⟨f | _, t⟩ := r
  · exact settle_samePlace h f t
  · exact .refl t

theorem evaluateLine_startsIn (hs : setup.Admits text s.nextLine) (hcount : 0 < s.frameCount) :
    (evaluateLine setup text s).2.StartsIn ⟨setup.file, (s.lineNumber + 1 : Nat), text.toList⟩ :=
  (runText_startsIn h hs rfl hcount).samePlace (evaluateLine_place h text s)

theorem evaluateLine_samePlace (hs : ¬ setup.Admits text s.nextLine) : s.nextLine.SamePlace (evaluateLine setup text s).2 :=
  (runText_samePlace h hs).trans (evaluateLine_place h text s)

end

theorem evaluateLine_lineNumber {setup : Setup ω} (h : setup.KeepsPlace) (text : String) {s : State ω} (hcount : 0 < s.frameCount) :
    (evaluateLine setup text s).2.lineNumber = s.lineNumber + 1 := by
  by_cases hs : setup.Admits text s.nextLine
  · obtain ⟨inner, ht⟩ := evaluateLine_startsIn h hs hcount
    exact Int.ofNat_inj.mp ht.lineNumber
  · exact (evaluateLine_samePlace h hs).lineNumber

/-- The frame of the session has been counted, and stands in none of the lines that are yet to come. -/
structure State.InTime (s : State ω) : Prop where
  frameCount : 0 < s.frameCount
  log : ∀ e p, s.log.lastOfFrame? Frame.top.number = some e → e.pos = some p → p.line ≤ s.lineNumber

theorem evaluateLine_inTime {setup : Setup ω} (h : setup.KeepsPlace) (text : String) {s : State ω} (hs : s.InTime) :
    (evaluateLine setup text s).2.InTime := by
  by_cases hadmits : setup.Admits text s.nextLine
  · -- the last entry of the session's frame is that of this line
    obtain ⟨inner, ht⟩ := evaluateLine_startsIn h hadmits hs.frameCount
    refine ⟨ht.frameCount, fun e p he hp => ?_⟩
    obtain ⟨e', p', he', hp', hsrc⟩ := ht.log
    obtain rfl := Option.some.inj (he.symm.trans he')
    obtain rfl := Option.some.inj (hp.symm.trans hp')
    exact (hsrc.line.trans ht.lineNumber.symm).le
  · -- it is still that of an earlier line, while this one has been counted
    have ht := evaluateLine_samePlace h hadmits
    refine ⟨ht.frameCount ▸ hs.frameCount, fun e p he hp => ?_⟩
    rw [ht.lineNumber]
    rw [ht.log] at he
    exact (hs.log e p he hp).trans (Int.ofNat_le.mpr s.lineNumber.le_succ)

/-- **Lines** are counted, and the frame of the session never runs ahead of them. -/
theorem evaluateLines_inTime {setup : Setup ω} (h : setup.KeepsPlace) : ∀ (ls : List String) {s : State ω}, s.InTime →
    (evaluateLines setup ls s).2.InTime ∧ (evaluateLines setup ls s).2.lineNumber = s.lineNumber + ls.length
  | [], _, hs => ⟨hs, rfl⟩
  | l :: ls, s, hs => by
    obtain ⟨ht, hcount⟩ := evaluateLines_inTime h ls (evaluateLine_inTime h l hs)
    rw [evaluateLine_lineNumber h l hs.frameCount] at hcount
    exact ⟨ht, hcount.trans (by rw [List.length_cons]; omega)⟩

/-! ## Tracebacks -/

theorem State.trace_of_frames {s : State ω} {inner : List Frame} (hframes : s.frames = inner ++ [.top]) :
    ∃ f fs, s.trace = f :: fs ∧ f.activity = .topLevel ∧ f.pos = (s.log.lastOfFrame? Frame.top.number).bind (·.pos) := by
  rw [State.trace, hframes, List.reverse_append, List.reverse_singleton, List.singleton_append, List.map_cons]
  refine ⟨_, _, rfl, ?_⟩
  cases s.log.lastOfFrame? Frame.top.number with
  | none => exact ⟨rfl, rfl⟩
  | some e => exact ⟨rfl, rfl⟩

def Setup.StartsReturn (setup : Setup ω) : Prop :=
  ∀ h ∈ setup.registry.handlers, h.event = .lineStart → ∀ notice s, ∃ t, (h.run notice).run s = (.ok (), t)

theorem admits_of_returns {setup : Setup ω} (hstarts : setup.StartsReturn) (hreports : setup.ReportsReturn) {text : String}
    {s t : State ω} (h : setup.KeepsPlace) {e : RuntimeError} (he : evaluateLine setup text s = (some (.runtime e), t)) :
    setup.Admits text s.nextLine := by
  obtain ⟨u, hu⟩ := notify_of_returns (.lineStart text) (fun g hg hevent => hstarts g hg hevent _) s.nextLine
  refine ⟨⟨u, hu⟩, ?_⟩
  have hplace := h.notify (.lineStart text) s.nextLine
  rw [hu] at hplace
  cases hread : Line.parse ⟨setup.file, s.nextLine.lineNumber, text.toList⟩ with
  | ok l => exact ⟨l, rfl⟩
  | error unread =>
    have hrun : (runText setup text).run s.nextLine = (.error (.error (.parse unread)), u) := by
      rw [runText_run, hu]
      dsimp only
      rw [hplace.lineNumber, hread]
      rfl
    have hend : evaluateLine setup text s =
        (some (report setup (.parse unread) u).1, (report setup (.parse unread) u).2) := by
      rw [evaluateLine_nextLine, hrun]
      rfl
    rw [hend, report_of_returns hreports] at he
    cases he

/-- **Tracebacks** start with the frame of the session. For a line that was admitted, it is shown in that line.
Otherwise nothing was logged for the line, and it is shown in an earlier one, if at all; then a handler has
failed. -/
theorem evaluateLine_traceback {setup : Setup ω} (h : setup.KeepsPlace) (world : ω) (ls : List String) {text : String}
    {e : RuntimeError} {t : State ω}
    (he : evaluateLine setup text (evaluateLines setup ls (setup.start world)).2 = (some (.runtime e), t)) :
    let s := (evaluateLines setup ls (setup.start world)).2
    let src : Source := ⟨setup.file, (ls.length + 1 : Nat), text.toList⟩
    ∃ f fs, t.trace = f :: fs ∧ f.activity = .topLevel ∧
      (setup.Admits text s.nextLine → ∃ p, f.pos = some p ∧ src.Shows p) ∧
      (¬ setup.Admits text s.nextLine → t.log = s.log ∧ ∀ p, f.pos = some p → p.line ≤ ls.length) ∧
      (setup.StartsReturn → setup.ReportsReturn → setup.Admits text s.nextLine) := by
  intro s src
  have hstart : (setup.start world).InTime := ⟨Nat.one_pos, by rintro _ _ ⟨⟩ ⟨⟩⟩
  obtain ⟨hs, hcount⟩ := evaluateLines_inTime h ls hstart
  obtain rfl : (evaluateLine setup text s).2 = t := congrArg Prod.snd he
  have hline : s.lineNumber = ls.length := hcount.trans (Nat.zero_add _)
  have hreturns := fun hstarts hreports => admits_of_returns hstarts hreports h he
  by_cases hadmits : setup.Admits text s.nextLine
  · obtain ⟨inner, ht⟩ := evaluateLine_startsIn h hadmits hs.frameCount
    rw [hline] at ht
    obtain ⟨entry, p, hentry, hp, hsrc⟩ := ht.log
    obtain ⟨f, fs, htrace, hf, hpos⟩ := State.trace_of_frames ht.frames
    rw [hentry] at hpos
    exact ⟨f, fs, htrace, hf, fun _ => ⟨p, hpos.trans hp, hsrc⟩, fun hnot => absurd hadmits hnot, hreturns⟩
  · have ht := evaluateLine_samePlace h hadmits
    obtain ⟨f, fs, htrace, hf, hpos⟩ := State.trace_of_frames (ht.frames.trans (List.nil_append _).symm)
    refine ⟨f, fs, htrace, hf, fun hyes => absurd hyes hadmits, fun _ => ⟨ht.log, fun p hp => ?_⟩, hreturns⟩
    rw [hpos, ht.log] at hp
    obtain ⟨entry, hentry, hp⟩ := Option.bind_eq_some_iff.mp hp
    rw [← hline]
    exact hs.log entry p hentry hp

theorem Setup.failingAt_keepsPlace (text : String) : (Setup.failingAt text).KeepsPlace where
  functions := List.forall_mem_nil _
  handlers g hg notice := ((Setup.failingAt_handsOff text).handlers g hg notice).keepsPlace
  rules := List.forall_mem_nil _

/-- A handler fails in a step that is run by a step: the traceback starts in the third line. -/
theorem evaluateLine_traceback_step :
    let setup := Setup.failingAt "1"
    let ls := ["1.1 Do part 2 for i = 3, 1.", "2.1 Type i."]
    let s := (evaluateLines setup ls (setup.start "")).2
    let r := evaluateLine setup "Do step 1.1." s
    setup.KeepsPlace ∧ r.1.map LineError.message = some "Extension hook 'output' failed: boom" ∧
      r.2.trace.map (fun f => (f.activity.label, f.pos.map fun p => (p.line, p.statement))) =
        [("<top-level>", some (3, "Do step 1.1.")), ("step 1.1", some (1, "1.1 Do part 2 for i = 3, 1.")),
          ("step 2.1", some (2, "2.1 Type i."))] ∧
      setup.Admits "Do step 1.1." s.nextLine ∧ ∃ f fs p, r.2.trace = f :: fs ∧ f.activity = .topLevel ∧ f.pos = some p ∧
        Source.Shows ⟨"<input>", 3, "Do step 1.1.".toList⟩ p := by
  intro setup ls s r
  have hplace : setup.KeepsPlace := Setup.failingAt_keepsPlace "1"
  obtain ⟨hlabel, hmessage⟩ : r.1.map LineError.label = some "JossRuntimeError" ∧
      r.1.map LineError.message = some "Extension hook 'output' failed: boom" := by decide +kernel
  obtain ⟨e, he⟩ := runtime_of_label hlabel
  obtain ⟨f, fs, htrace, hf, hshows, -, hadmits⟩ := evaluateLine_traceback hplace "" ls (Prod.ext he rfl)
  have hreturns : setup.Admits "Do step 1.1." s.nextLine :=
    hadmits (List.forall_mem_singleton.mpr nofun) (List.forall_mem_singleton.mpr nofun)
  obtain ⟨p, hp, hsrc⟩ := hshows hreturns
  exact ⟨hplace, hmessage, by decide +kernel, hreturns, f, fs, p, htrace, hf, hp, hsrc⟩

/-- A handler refuses the second line: the traceback starts in the first one. -/
theorem evaluateLine_traceback_fails :
    let setup := Setup.refusing "Type 2."
    let s := (evaluateLines setup ["Type 1."] (setup.start "")).2
    let r := evaluateLine setup "Type 2." s
    setup.KeepsPlace ∧ Reachable setup s ∧ s.lineNumber = 1 ∧
      r.1.map (fun e => (e.label, e.message)) = some ("JossRuntimeError", "Extension hook 'line_start' failed: boom") ∧
      r.2.trace.map (fun f => (f.activity.label, f.pos.map fun p => (p.line, p.statement))) =
        [("<top-level>", some (1, "Type 1."))] := by
  refine ⟨⟨List.forall_mem_nil _, ?_, List.forall_mem_nil _⟩, ⟨"", _, rfl⟩, ?_⟩
  · refine List.forall_mem_singleton.mpr fun notice u => ?_
    cases notice with
    | lineStart read =>
      dsimp only
      split <;> exact .refl u
    | _ => exact .refl u
  · decide +kernel

end JossLang
