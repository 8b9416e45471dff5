import JossLang.Proofs.Boundaries
import JossLang.Proofs.NotedSessions
import JossLang.Proofs.TracebackStart

/-!
# Chronicles

A session can be told with a chronicle beside its world, in which it notes what it starts and the frames that it makes
(`tellLine`); the starts and the ends of commands are noted by handlers of its own. A command is told which one runs it
through `Do`.

The session does as it does without one, its log and its frames are those of the chronicle, and commands that are told
of stand inside those that run them (`tellLine_told`).
-/

namespace JossLang

variable {ω : Type}

/-! ## Deeds -/

def Line.action : Line → Action
  | .direct c => .command c.verb.label
  | .stored _ number _ => .stored number

/-- A command or a stored line that is started, the number of its frame, the entry of the command that runs it, and the
state before it. -/
structure Start (ω : Type) where
  line : Line
  frame : Nat
  caller : Option Nat
  before : State ω

inductive Deed (ω : Type) where
  | start (d : Start ω)
  | frame (f : Frame)
  | event (b : Boundary Command)

abbrev Chronicle (ω : Type) := List (Deed ω)

namespace Chronicle

def starts (deeds : Chronicle ω) : List (Start ω) :=
  deeds.filterMap fun
    | .start d => some d
    | _ => none

def frames (deeds : Chronicle ω) : List Frame :=
  deeds.filterMap fun
    | .frame f => some f
    | _ => none

def events (deeds : Chronicle ω) : List (Boundary Command) :=
  deeds.filterMap fun
    | .event b => some b
    | _ => none

@[simp] theorem starts_append (ds es : Chronicle ω) : starts (ds ++ es) = ds.starts ++ es.starts := List.filterMap_append
@[simp] theorem frames_append (ds es : Chronicle ω) : frames (ds ++ es) = ds.frames ++ es.frames := List.filterMap_append
@[simp] theorem events_append (ds es : Chronicle ω) : events (ds ++ es) = ds.events ++ es.events := List.filterMap_append

@[simp] theorem of_nil : starts ([] : Chronicle ω) = [] ∧ frames ([] : Chronicle ω) = [] ∧ events ([] : Chronicle ω) = [] :=
  ⟨rfl, rfl, rfl⟩

@[simp] theorem start_cons (d : Start ω) (ds : Chronicle ω) : starts (.start d :: ds) = d :: ds.starts ∧
    frames (.start d :: ds) = ds.frames ∧ events (.start d :: ds) = ds.events := ⟨rfl, rfl, rfl⟩

@[simp] theorem frame_cons (f : Frame) (ds : Chronicle ω) : starts (.frame f :: ds) = ds.starts ∧
    frames (.frame f :: ds) = f :: ds.frames ∧ events (.frame f :: ds) = ds.events := ⟨rfl, rfl, rfl⟩

@[simp] theorem event_cons (b : Boundary Command) (ds : Chronicle ω) : starts (.event b :: ds) = ds.starts ∧
    frames (.event b :: ds) = ds.frames ∧ events (.event b :: ds) = b :: ds.events := ⟨rfl, rfl, rfl⟩

end Chronicle

/-! ## Telling -/

def Notice.deeds : Notice → Chronicle ω
  | .beforeCommand c => [.event (.opening c)]
  | .afterCommand c => [.event (.closing c)]
  | _ => []

def chronicler (event : Event) : Handler (ω × Chronicle ω) where
  event := event
  priority := 0
  extension := "chronicle"
  run notice := modify fun s => s.first.beside (s.world.2 ++ notice.deeds)

/-- The session with a chronicle beside its world, and with handlers that note there what they are told of commands. -/
abbrev Setup.told (setup : Setup ω) : Setup (ω × Chronicle ω) :=
  setup.beside (fun _ deeds => deeds) [chronicler .beforeCommand, chronicler .afterCommand]

def tell (deed : State ω → Deed ω) : Run (ω × Chronicle ω) Unit :=
  modify fun s => s.first.beside (s.world.2 ++ [deed s.first])

def tellFrame (step : Step) (pos : Location) : Run (ω × Chronicle ω) Unit := do
  let number := (← get).frameCount
  pushFrame (.step step.number) pos
  tell fun _ => .frame ⟨number, .step step.number, some pos⟩

section
variable (setup : Setup ω)

def Command.tellWith (runStep : (caller : Nat) → StepRunner (ω × Chronicle ω)) (frame : Nat) (caller : Option Nat)
    (c : Command) : Run (ω × Chronicle ω) Unit := do
  let index := (← get).log.nextIndex
  tell fun s => .start ⟨.direct c, frame, caller, s⟩
  record setup.told (.command c.verb.label) c.pos
  notify setup.told (.beforeCommand c)
  if ← guardHolds setup.told c.guard then c.verb.run setup.told (runStep index)
  notify setup.told (.afterCommand c)

/-- Runs a step for the command with a given entry, with at most `depth` steps inside one another. -/
def tellStep : (depth : Nat) → (caller : Nat) → StepRunner (ω × Chronicle ω)
  | 0, _, step, pos => do
    if setup.limits.framed then tellFrame step pos
    throw .limit
  | n + 1, caller, step, pos => do
    let number := (← get).frameCount
    tellFrame step pos
    step.command.tellWith setup (tellStep n) number (some caller)
    popFrame

def Line.tell : Line → Run (ω × Chronicle ω) Unit
  | .direct c => c.tellWith setup (tellStep setup setup.limits.steps) Frame.top.number none
  | .stored pos number c => do
    JossLang.tell fun s => .start ⟨.stored pos number c, Frame.top.number, none, s⟩
    record setup.told (.stored number) pos
    modify fun s => { s with program := s.program.store number c }

def tellText (text : String) : Run (ω × Chronicle ω) Unit := do
  notify setup.told (.lineStart text)
  match Line.parse ⟨setup.file, (← get).lineNumber, text.toList⟩ with
  | .ok line => line.tell setup
  | .error e => throw (.error (.parse e))

def tellLine (text : String) (s : State (ω × Chronicle ω)) : Option LineError × State (ω × Chronicle ω) :=
  match (tellText setup text).run s.nextLine with
  | (.ok _, t) => (none, t)
  | (.error f, t) =>
    let (e, u) := settle setup.told f t
    (some e, u)

def tellLines : List String → State (ω × Chronicle ω) → List LineError × State (ω × Chronicle ω)
  | [], s => ([], s)
  | l :: ls, s =>
    let (e, t) := tellLine setup l s
    let (es, u) := tellLines ls t
    (e.toList ++ es, u)

end

theorem tell_bind_run {α : Type} (deed : State ω → Deed ω) (m : Run (ω × Chronicle ω) α) (s : State ω)
    (deeds : Chronicle ω) : (tell deed >>= fun _ => m).run (s.beside deeds) = m.run (s.beside (deeds ++ [deed s])) := rfl

theorem tellFrame_bind_run {α : Type} (step : Step) (pos : Location) (m : Run (ω × Chronicle ω) α) (s : State ω)
    (deeds : Chronicle ω) : (tellFrame step pos >>= fun _ => m).run (s.beside deeds) =
      m.run ((s.enter step pos).beside (deeds ++ [.frame ⟨s.frameCount, .step step.number, some pos⟩])) := rfl

theorem Setup.told_notify (setup : Setup ω) (notice : Notice) (s : State ω) (deeds : Chronicle ω) :
    (notify setup.told notice).run (s.beside deeds) =
      (Run.beside (notify setup notice)).run (s.beside (deeds ++ notice.deeds)) := by
  rw [← notify_beside setup (fun _ deeds => deeds) (List.forall_mem_nil _)]
  cases notice with
  | beforeCommand c => rfl
  | afterCommand c => rfl
  | _ =>
    show _ = (notify _ _).run (s.beside (deeds ++ []))
    rw [List.append_nil]
    rfl

/-! ## Logs of chronicles -/

inductive LogFrom (verbose : Bool) (log₀ : Log) : List (Start ω) → Log → Prop where
  | nil : LogFrom verbose log₀ [] log₀
  | record {ds : List (Start ω)} {d : Start ω} : LogFrom verbose log₀ ds d.before.log →
      d.before.frames.head?.map (·.number) = some d.frame →
      LogFrom verbose log₀ (ds ++ [d]) (d.before.record verbose d.line.action d.line.pos).log

theorem LogFrom.nextIndex {verbose : Bool} {log₀ log : Log} {ds : List (Start ω)} (h : LogFrom verbose log₀ ds log) :
    log.nextIndex = log₀.nextIndex + ds.length := by
  induction h with
  | nil => rfl
  | record _ _ ih =>
    rw [List.length_append, ← Nat.add_assoc, ← ih]
    rfl

theorem LogFrom.trans {verbose : Bool} {log₀ log₁ log : Log} {ds es : List (Start ω)} (h : LogFrom verbose log₀ ds log₁)
    (h' : LogFrom verbose log₁ es log) : LogFrom verbose log₀ (ds ++ es) log := by
  induction h' with
  | nil => simpa using h
  | record _ hframe ih =>
    rw [← List.append_assoc]
    exact .record ih hframe

/-- The log and the count of frames of a state account for the deeds since another one. -/
structure State.Account (verbose : Bool) (s₀ s : State ω) (deeds : Chronicle ω) : Prop where
  log : LogFrom verbose s₀.log deeds.starts s.log
  frames : deeds.frames.map (·.number) = List.range' s₀.frameCount deeds.frames.length
  frameCount : s.frameCount = s₀.frameCount + deeds.frames.length
  counted : ∀ d ∈ deeds.starts, d.frame < s.frameCount

namespace State.Account

variable {verbose : Bool} {s₀ s t : State ω} {deeds : Chronicle ω}

theorem refl (s : State ω) : s.Account verbose s [] := ⟨.nil, rfl, rfl, List.forall_mem_nil _⟩

theorem samePlace (h : s₀.Account verbose s deeds) (ht : s.SamePlace t) : s₀.Account verbose t deeds where
  log := ht.log ▸ h.log
  frames := h.frames
  frameCount := ht.frameCount.trans h.frameCount
  counted := ht.frameCount ▸ h.counted

theorem event (h : s₀.Account verbose s deeds) (b : Boundary Command) : s₀.Account verbose s (deeds ++ [.event b]) where
  log := by simpa using h.log
  frames := by simpa using h.frames
  frameCount := by simpa using h.frameCount
  counted := by simpa using h.counted

theorem start (h : s₀.Account verbose s deeds) (line : Line) {frame : Nat} (caller : Option Nat)
    (hframe : s.frames.head?.map (·.number) = some frame) (hcount : frame < s.frameCount) :
    s₀.Account verbose (s.record verbose line.action line.pos) (deeds ++ [.start ⟨line, frame, caller, s⟩]) where
  log := by
    have hlog := LogFrom.record (d := ⟨line, frame, caller, s⟩) h.log hframe
    simpa using hlog
  frames := by simpa using h.frames
  frameCount := by
    have hcount := h.frameCount
    simpa [State.record] using hcount
  counted := by
    have hstarts := h.counted
    simpa [or_imp, forall_and, State.record] using ⟨hstarts, hcount⟩

theorem enter (h : s₀.Account verbose s deeds) (step : Step) (pos : Location) :
    s₀.Account verbose (s.enter step pos) (deeds ++ [.frame ⟨s.frameCount, .step step.number, some pos⟩]) where
  log := by simpa [State.enter] using h.log
  frames := by
    have hframes := h.frames
    simp [List.range'_concat, hframes, h.frameCount]
  frameCount := by
    have hcount := h.frameCount
    simp [State.enter, hcount, Nat.add_assoc]
  counted := by simpa [State.enter] using fun d hd => (h.counted d hd).trans s.frameCount.lt_succ_self

theorem trans {u : State ω} {later : Chronicle ω} (h : s₀.Account verbose s deeds) (h' : s.Account verbose u later) :
    s₀.Account verbose u (deeds ++ later) where
  log := by simpa using h.log.trans h'.log
  frames := by
    have hcount := h.frameCount
    simp [h.frames, h'.frames, List.range'_append_1, hcount]
  frameCount := by
    have hcount := h.frameCount
    have hcount' := h'.frameCount
    simp [hcount', hcount, Nat.add_assoc]
  counted d hd := by
    have hgrown : s.frameCount ≤ u.frameCount := h'.frameCount ▸ Nat.le_add_right _ _
    rw [Chronicle.starts_append] at hd
    rcases List.mem_append.mp hd with hd | hd
    · exact (h.counted d hd).trans_le hgrown
    · exact h'.counted d hd

end State.Account

/-! ## Stacks of calls -/

structure State.OnStack (s : State ω) (calls logged : List Call) : Prop where
  frames : s.frames = calls.map (·.frame)
  sorted : calls.Pairwise fun c c' => c'.frame.number < c.frame.number
  counted : ∀ c ∈ calls, c.frame.number < s.frameCount
  shows : ∀ c ∈ logged, s.log.Shows c

namespace State.OnStack

variable {s t : State ω} {c : Call} {cs calls logged : List Call}

theorem samePlace (h : s.OnStack calls logged) (ht : s.SamePlace t) : t.OnStack calls logged where
  frames := ht.frames.trans h.frames
  sorted := h.sorted
  counted := ht.frameCount ▸ h.counted
  shows := ht.log ▸ h.shows

theorem record (h : s.OnStack (c :: cs) cs) (hindex : c.index = s.log.nextIndex) (verbose : Bool) :
    (s.record verbose (.command c.command.verb.label) c.command.pos).OnStack (c :: cs) (c :: cs) where
  frames := h.frames
  sorted := h.sorted
  counted := h.counted
  shows := by
    have hframe : s.frames.head?.map (·.number) = some c.frame.number := by
      rw [h.frames]
      rfl
    intro x hx
    simp only [State.record, hframe, Log.Shows, Log.lastOfFrame?, Log.record, List.find?_cons]
    by_cases hn : c.frame.number = x.frame.number
    · rcases List.mem_cons.mp hx with rfl | hx
      · simp [hindex]
      · exact absurd hn (List.rel_of_pairwise_cons h.sorted hx).ne'
    · rcases List.mem_cons.mp hx with rfl | hx
      · exact absurd rfl hn
      · have hne : (some c.frame.number == some x.frame.number) = false := by simpa using hn
        rw [hne]
        exact h.shows x hx

theorem enter (h : s.OnStack cs cs) (step : Step) (pos : Location) :
    (s.enter step pos).OnStack (⟨⟨s.frameCount, .step step.number, some pos⟩, step.command, s.log.nextIndex⟩ :: cs) cs where
  frames := by
    rw [State.enter, h.frames]
    rfl
  sorted := List.pairwise_cons.mpr ⟨h.counted, h.sorted⟩
  counted := by
    intro x hx
    rcases List.mem_cons.mp hx with rfl | hx
    · exact s.frameCount.lt_succ_self
    · exact (h.counted x hx).trans s.frameCount.lt_succ_self
  shows := h.shows

theorem leave (h : s.OnStack (c :: cs) (c :: cs)) : s.leave.OnStack cs cs where
  frames := congrArg List.tail h.frames
  sorted := (List.pairwise_cons.mp h.sorted).2
  counted x hx := h.counted x (List.mem_cons_of_mem _ hx)
  shows x hx := h.shows x (List.mem_cons_of_mem _ hx)

end State.OnStack

/-! ## Events of chronicles -/

/-- The events of the deeds since a log leave the brackets of calls open, those that open are of what was started, and
stand inside those of the commands that run them. The calls were started with the entries that they have. -/
structure Chronicle.Tells (deeds : Chronicle ω) (log₀ : Log) (calls : List Call) : Prop where
  unclosed : Boundary.Unclosed deeds.events (calls.map (·.command))
  openings : (Boundary.openings deeds.events).map Line.direct = deeds.starts.map (·.line)
  nests : Boundary.Nests log₀.nextIndex deeds.events (deeds.starts.map (·.caller)) (calls.map (·.index))
  started : ∀ c ∈ calls, ∃ i d, c.index = log₀.nextIndex + i ∧ deeds.starts[i]? = some d ∧ d.line = .direct c.command ∧
    d.frame = c.frame.number

namespace Chronicle.Tells

variable {deeds : Chronicle ω} {log₀ : Log} {c : Call} {cs : List Call}

theorem nil (log₀ : Log) : Tells ([] : Chronicle ω) log₀ [] where
  unclosed := .balanced .nil
  openings := rfl
  nests := Boundary.nests_nil _
  started := List.forall_mem_nil _

theorem frame (h : deeds.Tells log₀ cs) (f : Frame) : Tells (deeds ++ [.frame f]) log₀ cs where
  unclosed := by simpa using h.unclosed
  openings := by simpa using h.openings
  nests := by simpa using h.nests
  started := by simpa using h.started

theorem opens (h : deeds.Tells log₀ cs) (hindex : c.index = log₀.nextIndex + deeds.starts.length) (s : State ω) :
    Tells (deeds ++ [.start ⟨.direct c.command, c.frame.number, cs.head?.map (·.index), s⟩] ++
      [.event (.opening c.command)]) log₀ (c :: cs) where
  unclosed := by simpa using h.unclosed.opens c.command
  openings := by simp [h.openings]
  nests := by
    have hnests := h.nests.opens c.command
    simpa [hindex, List.head?_map] using hnests
  started := by
    simp only [Chronicle.starts_append, Chronicle.start_cons, Chronicle.event_cons, Chronicle.of_nil, List.append_nil]
    refine List.forall_mem_cons.mpr ⟨⟨_, _, hindex, List.getElem?_concat_length, rfl, rfl⟩, fun x hx => ?_⟩
    obtain ⟨i, d, hi, hd, hline, hframe⟩ := h.started x hx
    exact ⟨i, d, hi, List.getElem?_append_left (List.getElem?_eq_some_iff.mp hd).1 ▸ hd, hline, hframe⟩

theorem closes (h : deeds.Tells log₀ (c :: cs)) : Tells (deeds ++ [.event (.closing c.command)]) log₀ cs where
  unclosed := by simpa using Boundary.Unclosed.closes h.unclosed
  openings := by simp [h.openings]
  nests := by
    have hnests := Boundary.Nests.closes h.nests c.command
    simpa using hnests
  started := by simpa using fun x hx => h.started x (List.mem_cons_of_mem _ hx)

end Chronicle.Tells

end JossLang
