import JossLang.Proofs.DoLines
import JossLang.Proofs.LogIntegrity
import JossLang.Proofs.Observers

/-!
# Events of commands

Handlers that do their work and return are told of the starts and the ends of commands as brackets are opened and
closed: a command is inside another if this one runs it (`evaluateLine_events`). A line that fails leaves open the
brackets of the commands whose frames are still on the stack.
-/

namespace JossLang

variable {ω : Type}

theorem Log.Chained.getElem?_index {log : Log} (h : log.Chained) {e : Entry} (he : e ∈ log.entries) :
    log.toList[e.index]? = some e := by
  obtain ⟨i, hi⟩ := List.mem_iff_getElem?.mp (List.mem_reverse.mpr he)
  rwa [(h i e hi).1]

theorem LogFrom.lastOfFrame? {verbose : Bool} {log₀ log : Log} {ds : List (Start ω)} (h : LogFrom verbose log₀ ds log)
    (hlog : log₀.Chained) {c : Call} (hc : log.Shows c) {i : Nat} {d : Start ω} (hi : c.index = log₀.nextIndex + i)
    (hd : ds[i]? = some d) : log.lastOfFrame? c.frame.number = some (d.entry verbose) := by
  obtain ⟨e, he, hindex, -, -⟩ := hc
  have hentry := (h.chained hlog).getElem?_index (List.mem_of_find?_eq_some he)
  rw [hindex, hi, hlog.last.1, h.toList, List.getElem?_append_right (Nat.le_add_right _ _), Nat.add_sub_cancel_left,
    List.getElem?_map, hd] at hentry
  rw [he, ← hentry]
  rfl

section
variable {setup : Setup ω} (h : setup.KeepsPlace)
include h

theorem Reachable.chained {s : State ω} (hs : Reachable setup s) : 0 < s.frameCount ∧ s.log.Chained ∧
    ∀ e ∈ s.log.toList, ∀ n, e.frame = some n → n < s.frameCount := by
  obtain ⟨world, ls, rfl⟩ := hs
  obtain ⟨deeds, -, haccount⟩ := tellLines_account h ls [] (s := setup.start world) Nat.one_pos
  refine ⟨haccount.frameCount ▸ Nat.add_pos_left Nat.one_pos _, haccount.log.chained Log.chained_start, fun e he n hn => ?_⟩
  rw [haccount.log.toList] at he
  rcases List.mem_append.mp he with he | he
  · obtain rfl := List.eq_of_mem_singleton he
    cases hn
  · obtain ⟨d, hd, rfl⟩ := List.mem_map.mp he
    obtain rfl := Option.some.inj hn
    exact haccount.counted d hd

/-- Only handlers and rules could stop a line that is to be stored. -/
theorem evaluateLine_stored_succeeds (hreturn : setup.HooksReturn) {text : String} {s : State ω} {pos : Location}
    {number : StepNumber} {c : Command}
    (hread : Line.parse ⟨setup.file, (s.lineNumber + 1 : Nat), text.toList⟩ = .ok (.stored pos number c)) :
    (evaluateLine setup text s).1 = none := by
  have hplace := h.notify (.lineStart text) s.nextLine
  obtain ⟨t, ht⟩ := hreturn.notify (.lineStart text) s.nextLine
  obtain ⟨u, hu⟩ := hreturn.record (.stored number) pos t
  rw [ht] at hplace
  have hline : ((Line.stored pos number c).run setup).run t = (.ok (), { u with program := u.program.store number c }) := by
    rw [Line.run, run_bind, hu]
    rfl
  have hrun : (runText setup text).run s.nextLine = ((Line.stored pos number c).run setup).run t := by
    have hnumber : s.nextLine.lineNumber = s.lineNumber + 1 := rfl
    rw [runText_run, ht]
    dsimp only
    rw [hplace.lineNumber, hnumber, hread]
    rfl
  rw [evaluateLine_nextLine, hrun, hline]

end

/-- Nothing was logged under the frame of a step that found no room. -/
theorem State.Crowded.frames {setup : Setup ω} {s₀ s : State ω} {calls : List Call} {deeds : Chronicle ω}
    (h : s₀.Crowded setup calls s deeds) (haccount : s₀.Account setup.verbose s deeds)
    (hlog : ∀ e ∈ s₀.log.toList, ∀ n, e.frame = some n → n < s₀.frameCount) :
    ∃ x, s.frames = x :: calls.map (·.frame) ∧ s.log.lastOfFrame? x.number = none := by
  obtain ⟨x, hstack, hfirst, hlater⟩ := h.stack
  refine ⟨x.frame, hstack.frames, ?_⟩
  rw [Log.lastOfFrame?_eq, List.getLast?_eq_none_iff, List.filter_eq_nil_iff, haccount.log.toList]
  refine List.forall_mem_append.mpr ⟨fun e he hx => ?_, fun e he hx => ?_⟩
  · exact absurd (hlog e he _ (of_decide_eq_true hx)) (Nat.not_lt.mpr hfirst)
  · obtain ⟨d, hd, rfl⟩ := List.mem_map.mp he
    have hframe : d.frame = x.frame.number := Option.some.inj (of_decide_eq_true hx)
    exact (hlater d hd).ne hframe

/-- **Events of commands**, when what is registered keeps its place, so that it starts nothing, and handlers and rules
return. The handlers are told of a line's commands in the order of their entries in the log, and one of them is directly
inside another if this one runs it. When the line succeeds, all of them have ended. When it fails, those have not whose
frames are on the stack, and they are the last ones that were logged under these frames. At a limit there may be one more
frame, which nothing was logged under. -/
theorem evaluateLine_events {setup : Setup ω} (h : setup.KeepsPlace) (hreturn : setup.HooksReturn) {s : State ω}
    (hs : Reachable setup s) (text : String) :
    let r := evaluateLine setup text s
    let read := Line.parse ⟨setup.file, (s.lineNumber + 1 : Nat), text.toList⟩
    ∃ deeds : Chronicle ω, tellLine setup text (s.beside []) = (r.1, r.2.beside deeds) ∧
      r.2.log.toList = s.log.toList ++ deeds.starts.map (Start.entry setup.verbose) ∧
      (∀ pos number c, read = .ok (.stored pos number c) →
        r.1 = none ∧ deeds.events = [] ∧ deeds.starts.map (·.line) = [.stored pos number c]) ∧
      ∀ c, read = .ok (.direct c) →
        (Boundary.openings deeds.events).map Line.direct = deeds.starts.map (·.line) ∧
        Boundary.enclosers s.log.nextIndex [] deeds.events = deeds.starts.map (·.caller) ∧
        (r.1 = none → Boundary.Balanced deeds.events) ∧
        ∀ e, r.1 = some e → ∃ calls : List Call,
          Boundary.Unclosed deeds.events (calls.map (·.command)) ∧
          Boundary.Balanced (deeds.events ++ calls.map (.closing ·.command)) ∧
          (r.2.frames = calls.map (·.frame) ∨ setup.limits.framed ∧ e = internalError r.2 .limitReached ∧
            ∃ x, r.2.frames = x :: calls.map (·.frame) ∧ r.2.log.lastOfFrame? x.number = none) ∧
          ∀ x ∈ calls, ∃ d ∈ deeds.starts, d.line = .direct x.command ∧
            r.2.log.lastOfFrame? x.frame.number = some (d.entry setup.verbose) := by
  intro r read
  obtain ⟨hcount, hchained, hnumbers⟩ := hs.chained h
  obtain ⟨deeds, htold, hfinished, hstopped⟩ := tellLine_told h [] hcount text
  have haccount : s.nextLine.Account setup.verbose r.2 deeds := by
    cases he : r.1 with
    | none => exact (hfinished he).account
    | some e =>
      obtain ⟨_, hfailed, -⟩ := hstopped e he
      exact hfailed.account
  refine ⟨deeds, htold, haccount.log.toList, fun pos number c hread => ?_, fun c hread => ?_⟩
  · have hnone := evaluateLine_stored_succeeds h hreturn hread
    exact ⟨hnone, (hfinished hnone).stored pos number c hread⟩
  · cases he : r.1 with
    | none =>
      have htells := (hfinished he).direct c hread
      refine ⟨htells.openings, htells.nests.enclosers_eq, fun _ => htells.unclosed.balanced_of_nil, fun _ hsome => ?_⟩
      cases hsome
    | some e =>
      -- the calls that are under way are both the frames on the stack and the brackets left open
      obtain ⟨f, hfailed, hlimit⟩ := hstopped e he
      obtain ⟨calls, hcalls⟩ := hfailed.underway hreturn _ hread
      have htells : deeds.Tells s.log calls := hcalls.elim (·.tells) (·.2.tells)
      have hshows : ∀ x ∈ calls, r.2.log.Shows x := hcalls.elim (·.stack.shows) fun hfull =>
        hfull.2.stack.choose_spec.1.shows
      refine ⟨htells.openings, htells.nests.enclosers_eq, fun hnone => ?_, fun e' he' => ⟨calls, htells.unclosed, ?_, ?_,
        fun x hx => ?_⟩⟩
      · cases hnone
      · have hcompleted := htells.unclosed.completed
        rwa [List.map_map] at hcompleted
      · obtain rfl := Option.some.inj he'
        rcases hcalls with hcalls | ⟨rfl, hfull⟩
        · exact .inl hcalls.stack.frames
        · exact .inr ⟨hfull.framed, hlimit rfl, hfull.frames haccount hnumbers⟩
      · obtain ⟨i, d, hi, hd, hline, -⟩ := htells.started x hx
        exact ⟨d, List.mem_of_getElem? hd, hline, haccount.log.lastOfFrame? hchained (hshows x hx) hi hd⟩

theorem Setup.noting_keepsPlace : Setup.noting.KeepsPlace where
  functions := List.forall_mem_nil _
  handlers g hg notice := by
    obtain ⟨event, -, rfl⟩ := List.mem_map.mp hg
    exact fun _ => ⟨rfl, rfl, rfl, rfl⟩
  rules r hr notice := by
    rw [List.eq_of_mem_singleton hr]
    exact fun _ => ⟨rfl, rfl, rfl, rfl⟩

theorem Setup.noting_hooksReturn : Setup.noting.HooksReturn where
  handlers g hg notice s := by
    obtain ⟨event, -, rfl⟩ := List.mem_map.mp hg
    exact ⟨_, rfl⟩
  rules r hr notice s := by
    rw [List.eq_of_mem_singleton hr]
    exact ⟨_, rfl⟩

/-- A step that is run by a step fails in its second round, when the first one has ended. -/
theorem evaluateLine_events_failing :
    let setup := Setup.noting
    let s := (evaluateLines setup ["1.1 Do part 2 for i = 3, 1.", "2.1 Type i, a(i - 1).", "Set a(2) = 5."]
      (setup.start ("", []))).2
    let r := evaluateLine setup "Do step 1.1." s
    setup.KeepsPlace ∧ setup.HooksReturn ∧ Reachable setup s ∧ r.1.map LineError.label = some "JossArrayMissError" ∧
      ∃ (deeds : Chronicle (String × List String)) (calls : List Call),
        tellLine setup "Do step 1.1." (s.beside []) = (r.1, r.2.beside deeds) ∧
        deeds.events.map (fun | .opening c => "before " ++ c.verb.label | .closing c => "after " ++ c.verb.label) =
          ["before Do", "before Do", "before Type", "after Type", "before Type"] ∧
        calls.map (·.frame.number) = [3, 1, 0] ∧
        Boundary.Unclosed deeds.events (calls.map (·.command)) := by
  intro setup s r
  have hs : Reachable setup s := ⟨("", []), _, rfl⟩
  obtain ⟨hlabel, hnumbers⟩ : r.1.map LineError.label = some "JossArrayMissError" ∧
      r.2.frames.map (·.number) = [3, 1, 0] := by decide +kernel
  have hp : Pointed "1.1".toList ['1'] ['1'] :=
    ⟨by decide, List.all_eq_true.mp (by decide), by decide, List.all_eq_true.mp (by decide)⟩
  have hn : StepNumber.ofLiteral "1.1" = .ok ⟨"1", "1"⟩ := by decide +kernel
  obtain ⟨c, -, hread⟩ := parse_doStep hp.numeral hn setup.file (s.lineNumber + 1 : Nat)
  obtain ⟨deeds, htold, -, -, hevents⟩ := evaluateLine_events Setup.noting_keepsPlace Setup.noting_hooksReturn hs "Do step 1.1."
  obtain ⟨-, -, -, hfailed⟩ := hevents c hread
  obtain ⟨e, he, -⟩ := Option.map_eq_some_iff.mp hlabel
  obtain ⟨calls, hunclosed, -, hstack, -⟩ := hfailed e he
  have hframes := hstack.resolve_right fun hfull => Bool.false_ne_true hfull.1
  have hdeeds : deeds = (tellLine setup "Do step 1.1." (s.beside [])).2.world.2 := by
    rw [htold]
    rfl
  rw [hframes, List.map_map] at hnumbers
  refine ⟨Setup.noting_keepsPlace, Setup.noting_hooksReturn, hs, hlabel, deeds, calls, htold, ?_, hnumbers, hunclosed⟩
  rw [hdeeds]
  decide +kernel

end JossLang
