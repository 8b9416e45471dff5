import JossLang.Proofs.Digits
import JossLang.Proofs.ToldSessions

/-!
# Integrity of the log

The log of a session is what its chronicle says was started, in order (`LogFrom.toList`). Its entries are numbered from
zero and chained by their states, and neither states nor frames share an id. All of this holds at the end of any run
(`evaluateLines_log`), whatever has failed on the way.
-/

namespace JossLang

variable {ω : Type}

/-! ## Ids -/

theorem padded_injective (width : Nat) : Function.Injective (padded width) := by
  intro m n h
  have hdigits := congrArg digitsValue (String.ofList_injective h)
  simpa [digitsValue_append] using hdigits

theorem stateId_injective : Function.Injective stateId := fun _ _ h =>
  padded_injective 6 ((String.append_right_inj _).mp h)

theorem frameId_injective : Function.Injective frameId := fun _ _ h =>
  padded_injective 4 ((String.append_right_inj _).mp h)

/-! ## Chained entries -/

namespace Log

theorem toList_record (log : Log) (action : Action) (frame : Option Nat) (pos : Option Location)
    (snapshot : Option (List (String × String))) : (log.record action frame pos snapshot).toList =
      log.toList ++ [⟨log.nextIndex, log.last?.map (·.index), action, frame, pos, snapshot⟩] := List.reverse_cons

/-- Entries are numbered from zero, and each of them but the first comes from the one before it. -/
def Chained (log : Log) : Prop :=
  ∀ i e, log.toList[i]? = some e → e.index = i ∧ e.previous = if i = 0 then none else some (i - 1)

theorem Chained.last {log : Log} (h : log.Chained) :
    log.nextIndex = log.toList.length ∧
      log.last?.map (·.index) = if log.toList.length = 0 then none else some (log.toList.length - 1) := by
  obtain ⟨_ | ⟨e, es⟩⟩ := log
  · exact ⟨rfl, rfl⟩
  · have hlist : toList ⟨e :: es⟩ = es.reverse ++ [e] := List.reverse_cons
    have hlast : (es.reverse ++ [e])[es.reverse.length]? = some e := List.getElem?_concat_length
    have hindex := (h es.reverse.length e (hlist ▸ hlast)).1
    simp [hlist, nextIndex, last?, hindex]

theorem Chained.record {log : Log} (h : log.Chained) (action : Action) (frame : Option Nat) (pos : Option Location)
    (snapshot : Option (List (String × String))) : (log.record action frame pos snapshot).Chained := by
  intro i e he
  rw [toList_record] at he
  by_cases hi : i < log.toList.length
  · rw [List.getElem?_append_left hi] at he
    exact h i e he
  · rw [List.getElem?_append_right (Nat.le_of_not_lt hi), List.getElem?_singleton, Option.ite_none_right_eq_some] at he
    obtain ⟨hzero, hentry⟩ := he
    obtain rfl := Option.some.inj hentry
    obtain rfl : i = log.toList.length := by omega
    exact h.last

theorem chained_start : start.Chained := by
  intro i e he
  have hstart : start.toList = [⟨0, none, .seed, none, none, none⟩] := rfl
  rw [hstart, List.getElem?_singleton, Option.ite_none_right_eq_some] at he
  obtain ⟨rfl, hentry⟩ := he
  obtain rfl := Option.some.inj hentry
  exact ⟨rfl, rfl⟩

theorem lastOfFrame?_eq (log : Log) (n : Nat) :
    log.lastOfFrame? n = (log.toList.filter (·.frame = some n)).getLast? := by
  rw [toList, List.filter_reverse, List.getLast?_reverse, List.head?_filter, lastOfFrame?]
  simp only [beq_eq_decide]

end Log

/-! ## Entries for what is started -/

def Start.entry (verbose : Bool) (d : Start ω) : Entry where
  index := d.before.log.nextIndex
  previous := d.before.log.last?.map (·.index)
  action := d.line.action
  frame := some d.frame
  pos := some d.line.pos
  snapshot := if verbose then some d.before.environment.snapshot else none

section
variable {verbose : Bool} {log₀ log : Log} {ds : List (Start ω)}

theorem LogFrom.toList (h : LogFrom verbose log₀ ds log) : log.toList = log₀.toList ++ ds.map (Start.entry verbose) := by
  induction h with
  | nil => simp
  | record _ hframe ih =>
    rw [State.record, Log.toList_record, ih, hframe, List.map_append, List.append_assoc]
    rfl

theorem LogFrom.chained (h : LogFrom verbose log₀ ds log) (hlog : log₀.Chained) : log.Chained := by
  induction h with
  | nil => exact hlog
  | record _ _ ih => exact Log.Chained.record ih _ _ _ _

/-- When something is started, the log is as much of the later one as comes before its entry. -/
theorem LogFrom.before (h : LogFrom verbose log₀ ds log) {i : Nat} {d : Start ω} (hd : ds[i]? = some d) :
    d.before.log.toList = log.toList.take (log₀.toList.length + i) := by
  induction h with
  | nil => cases hd
  | @record es d' hlog hframe ih =>
    have hnow := (LogFrom.record hlog hframe).toList
    rw [List.map_append, ← List.append_assoc, ← hlog.toList] at hnow
    have hlength := congrArg List.length hlog.toList
    rw [List.length_append, List.length_map] at hlength
    rw [hnow]
    by_cases hi : i < es.length
    · rw [List.getElem?_append_left hi] at hd
      rw [ih hd, List.take_append_of_le_length (by omega)]
    · rw [List.getElem?_append_right (Nat.le_of_not_lt hi), List.getElem?_singleton, Option.ite_none_right_eq_some] at hd
      obtain ⟨hzero, hsame⟩ := hd
      obtain rfl : i = es.length := by omega
      obtain rfl := Option.some.inj hsame
      rw [List.take_left' hlength]

end

/-! ## Runs -/

section
variable {setup : Setup ω} (h : setup.KeepsPlace)
include h

theorem tellLine_account (past : Chronicle ω) {s : State ω} (hcount : 0 < s.frameCount) (text : String) :
    ∃ deeds, tellLine setup text (s.beside past) =
        ((evaluateLine setup text s).1, (evaluateLine setup text s).2.beside (past ++ deeds)) ∧
      s.Account setup.verbose (evaluateLine setup text s).2 deeds := by
  obtain ⟨deeds, htold, hfinished, hstopped⟩ := tellLine_told h past hcount text
  refine ⟨deeds, htold, ?_⟩
  have haccount : s.nextLine.Account setup.verbose (evaluateLine setup text s).2 deeds := by
    cases he : (evaluateLine setup text s).1 with
    | none => exact (hfinished he).account
    | some e =>
      obtain ⟨_, hfailed, -⟩ := hstopped e he
      exact hfailed.account
  exact ⟨haccount.log, haccount.frames, haccount.frameCount, haccount.counted⟩

theorem tellLines_account : ∀ (ls : List String) (past : Chronicle ω) {s : State ω}, 0 < s.frameCount →
    ∃ deeds, tellLines setup ls (s.beside past) =
        ((evaluateLines setup ls s).1, (evaluateLines setup ls s).2.beside (past ++ deeds)) ∧
      s.Account setup.verbose (evaluateLines setup ls s).2 deeds
  | [], past, s, _ => ⟨[], by rw [List.append_nil]; rfl, .refl s⟩
  | l :: ls, past, s, hcount => by
    obtain ⟨deeds, htold, haccount⟩ := tellLine_account h past hcount l
    have hcount' : 0 < (evaluateLine setup l s).2.frameCount := haccount.frameCount ▸ Nat.add_pos_left hcount _
    obtain ⟨later, htold', haccount'⟩ := tellLines_account ls (past ++ deeds) hcount'
    refine ⟨deeds ++ later, ?_, haccount.trans haccount'⟩
    rw [tellLines, htold]
    dsimp only
    rw [htold', List.append_assoc]
    rfl

end

theorem State.Account.frameIds_nodup {verbose : Bool} {s₀ s : State ω} {deeds : Chronicle ω} (h : s₀.Account verbose s deeds)
    (hcount : 0 < s₀.frameCount) : ((Frame.top :: deeds.frames).map fun f => frameId f.number).Nodup := by
  have hnumbers : ((Frame.top :: deeds.frames).map (·.number)).Nodup := by
    rw [List.map_cons, h.frames, List.nodup_cons]
    refine ⟨fun hmem => ?_, List.nodup_range'⟩
    have htop := (List.mem_range'_1.mp hmem).1
    exact absurd hcount (Nat.not_lt.mpr htop)
  have hids := hnumbers.map frameId_injective
  rwa [List.map_map] at hids

theorem Log.Chained.toState_nodup {log : Log} (h : log.Chained) : (log.toList.map (·.toState)).Nodup := by
  have hindices : log.toList.map (·.index) = List.range log.toList.length := by
    refine List.ext_getElem? fun i => ?_
    rw [List.getElem?_map]
    cases he : log.toList[i]? with
    | none =>
      have hi := List.getElem?_eq_none_iff.mp he
      simp [hi]
    | some e =>
      obtain ⟨hi, -⟩ := List.getElem?_eq_some_iff.mp he
      rw [List.getElem?_range hi]
      exact congrArg some (h i e he).1
  have hids := (List.nodup_range (n := log.toList.length)).map stateId_injective
  rwa [← hindices, List.map_map] at hids

/-- **Integrity of the log**, when what is registered keeps its place, so that it evaluates no lines. After any run, the log
is the seed with an entry for each command and each stored line that was started, in order, made before it took effect.
Entries are numbered and chained, none of them is changed or lost when the session goes on, states and frames have ids of
their own, and the last entry of a frame is found. -/
theorem evaluateLines_log {setup : Setup ω} (h : setup.KeepsPlace) (world : ω) (ls : List String) :
    let s := (evaluateLines setup ls (setup.start world)).2
    let entries := s.log.toList
    ∃ deeds : Chronicle ω,
      tellLines setup ls ((setup.start world).beside []) = ((evaluateLines setup ls (setup.start world)).1, s.beside deeds) ∧
      entries = Log.start.toList ++ deeds.starts.map (Start.entry setup.verbose) ∧
      (∀ i d, deeds.starts[i]? = some d → d.before.log.toList = entries.take (i + 1)) ∧
      (∀ i e, entries[i]? = some e →
        e.index = i ∧ e.toState = stateId i ∧ e.fromState = if i = 0 then "seed" else stateId (i - 1)) ∧
      (∀ later, entries <+: (evaluateLines setup (ls ++ later) (setup.start world)).2.log.toList) ∧
      (entries.map (·.toState)).Nodup ∧ ((Frame.top :: deeds.frames).map fun f => frameId f.number).Nodup ∧
      ∀ n, s.log.lastOfFrame? n = (entries.filter (·.frame = some n)).getLast? := by
  intro s entries
  obtain ⟨deeds, htold, haccount⟩ := tellLines_account h ls [] (s := setup.start world) Nat.one_pos
  have hchained : s.log.Chained := haccount.log.chained Log.chained_start
  refine ⟨deeds, htold, haccount.log.toList, fun i d hd => ?_, fun i e he => ?_, fun later => ?_, hchained.toState_nodup,
    haccount.frameIds_nodup Nat.one_pos, s.log.lastOfFrame?_eq⟩
  · rw [haccount.log.before hd, Nat.add_comm i]
    rfl
  · obtain ⟨hindex, hprevious⟩ := hchained i e he
    refine ⟨hindex, congrArg stateId hindex, ?_⟩
    rw [Entry.fromState, hprevious]
    by_cases hi : i = 0
    · rw [if_pos hi, if_pos hi]
    · rw [if_neg hi, if_neg hi]
  · -- later lines only put entries behind those that are there
    have hcount : 0 < s.frameCount := haccount.frameCount ▸ Nat.add_pos_left Nat.one_pos _
    obtain ⟨_, -, hlater⟩ := tellLines_account h later [] hcount
    rw [evaluateLines_append, hlater.log.toList]
    exact List.prefix_append _ _

/-- A handler fails in a step that is run by a step, in a session that takes snapshots. -/
theorem evaluateLines_log_failing :
    let setup := { Setup.failingAt "1" with verbose := true }
    let ls := ["1.1 Do part 2 for i = 3, 1.", "2.1 Type i.", "Do step 1.1.", "Set i = 7."]
    let s := (evaluateLines setup ls (setup.start "")).2
    setup.KeepsPlace ∧
      s.log.toList.map (fun e => (e.fromState, e.action.label, e.toState)) =
        [("seed", "SEED", "s_000000"), ("s_000000", "StoredCommand", "s_000001"), ("s_000001", "StoredCommand", "s_000002"),
          ("s_000002", "Do", "s_000003"), ("s_000003", "Do", "s_000004"), ("s_000004", "Type", "s_000005"),
          ("s_000005", "Type", "s_000006"), ("s_000006", "Set", "s_000007")] ∧
      s.log.toList.getLast?.bind (·.snapshot) = some [("i", "scalar:1")] ∧
      (s.log.toList.map (·.toState)).Nodup ∧
      ∃ deeds : Chronicle String, s.log.toList = Log.start.toList ++ deeds.starts.map (Start.entry true) := by
  obtain ⟨hfunctions, hhandlers, hrules⟩ := Setup.failingAt_keepsPlace "1"
  have hplace : { Setup.failingAt "1" with verbose := true }.KeepsPlace := ⟨hfunctions, hhandlers, hrules⟩
  refine ⟨hplace, and_assoc.mp ⟨by decide +kernel, ?_⟩⟩
  obtain ⟨deeds, -, hentries, -, -, -, hids, -⟩ := evaluateLines_log hplace "" _
  exact ⟨hids, deeds, hentries⟩

end JossLang
