import JossLang.Extension.Statistics
import JossLang.Proofs.Registrations
import JossLang.Proofs.UnbrokenRuns
import JossLang.Transcript

/-!
# Recorded sessions

Commands with the lines that they output make a transcript. Replayed in a session of its own, it has no mismatch; with
other lines in the place of some outputs, it has the mismatches of just these commands: `replay_recorded`.
-/

namespace JossLang

def outputLines (typed : String) (error : Option LineError) : List String :=
  trimLines ((linesOf typed.toList).map String.ofList ++ (error.map fun e => "Error: " ++ e.message).toList)

/-- A command with the lines that it outputs, and the lines that are written in their place, if there are any. -/
structure Recording where
  command : String
  output : List String
  change : Option (List String)
deriving DecidableEq

namespace Recording

def block (r : Recording) : List String := r.change.getD r.output

def lines (r : Recording) : List String := ("> " ++ r.command) :: r.block

def mismatch? (r : Recording) (line : Nat) : Option Mismatch :=
  r.change.map fun block => ⟨line, r.command, trimLines block, r.output⟩

end Recording

/-- Records commands one after the other, some with other lines in the place of their output. What is stray ends the
record. -/
def recordings {ω : Type} (setup : Setup ω) : List (String × Option (List String)) → State ω → List Recording
  | [], _ => []
  | (command, change) :: script, s =>
    match evaluateLine setup command s with
    | (some (.stray _), _) => []
    | (e, s') => ⟨command, outputLines (s'.typedSince s) e, change⟩ :: recordings setup script s'

def transcript (rs : List Recording) : String := unlines (rs.flatMap Recording.lines)

def numbered : (line : Nat) → List Recording → List (Nat × Recording)
  | _, [] => []
  | n, r :: rs => (n, r) :: numbered (n + r.lines.length) rs

theorem mem_of_mem_numbered {rs : List Recording} {n : Nat} {e : Nat × Recording} (h : e ∈ numbered n rs) : e.2 ∈ rs := by
  induction rs generalizing n with
  | nil => cases h
  | cons r rs ih =>
    rcases List.mem_cons.mp h with rfl | h
    · exact List.mem_cons_self
    · exact List.mem_cons_of_mem _ (ih h)

def mismatches (rs : List Recording) : List Mismatch := (numbered 1 rs).filterMap fun e => e.2.mismatch? e.1

def Marked (l : String) : Prop := l.toList.head? = some '>' ∨ l.toList.head? = some '#'

instance (l : String) : Decidable (Marked l) := inferInstanceAs (Decidable (_ ∨ _))

/-! ## Reading transcripts -/

def Recording.exchange (r : Recording) (line : Nat) : Exchange := ⟨line, r.command, r.block⟩

theorem readExchanges_block (rest : List (List Char)) (x : Exchange) (xs : List Exchange) : ∀ (block : List String) (n : Nat)
    (expected : List String), (∀ l ∈ block, ¬ Marked l) →
    readExchanges n (block.map String.toList ++ rest) ({ x with expected := expected } :: xs) =
      readExchanges (n + block.length) rest ({ x with expected := block.reverse ++ expected } :: xs)
  | [], _, _, _ => rfl
  | l :: block, n, expected, h => by
    obtain ⟨hl, h⟩ := List.forall_mem_cons.mp h
    rw [List.map_cons, List.cons_append, readExchanges]
    · rw [String.ofList_toList, readExchanges_block rest x xs block (n + 1) (l :: expected) h, List.reverse_cons,
        List.append_assoc, List.singleton_append, List.length_cons, Nat.add_right_comm, Nat.add_assoc]
    · intro cs hcs
      exact hl (.inr (by simp [hcs]))
    · intro cs hcs
      exact hl (.inl (by simp [hcs]))

theorem trim_space (cs : List Char) : trim (' ' :: cs) = trim cs := by
  have hspace : isBlank ' ' = true := by decide
  simp [trim, trimStart, hspace]

theorem readExchanges_recordings : ∀ (rs : List Recording) (n : Nat) (read : List Exchange),
    (∀ r ∈ rs, trimmed r.command = r.command ∧ ∀ l ∈ r.block, ¬ Marked l) →
    readExchanges n ((rs.flatMap Recording.lines).map String.toList) read =
      .ok ((read.reverse.map fun x => { x with expected := x.expected.reverse }) ++
        (numbered n rs).map fun e => e.2.exchange e.1)
  | [], _, _, _ => by
    simp [readExchanges, numbered]
  | r :: rs, n, read, h => by
    obtain ⟨⟨hcommand, hblock⟩, h⟩ := List.forall_mem_cons.mp h
    have hline : ("> " ++ r.command).toList = '>' :: ' ' :: r.command.toList := by simp
    have hread : String.ofList (trim (' ' :: r.command.toList)) = r.command := by rw [trim_space]; exact hcommand
    rw [List.flatMap_cons, Recording.lines, List.cons_append, List.map_cons, List.map_append, hline, readExchanges, hread]
    rw [readExchanges_block _ ⟨n, r.command, []⟩ read r.block (n + 1) [] hblock, readExchanges_recordings rs _ _ h]
    simp [numbered, Recording.lines, Recording.exchange, Nat.add_assoc, Nat.add_comm]

/-! ## Outputs -/

def errorText : Option LineError → String
  | none => ""
  | some e => "Error: " ++ e.message ++ "\n"

section
variable {ω : Type} {setup : Setup ω}

theorem exchange_of_line {command : String} {s t : State ω} {error : Option LineError}
    (hline : evaluateLine setup command s = (error, t)) (hstray : ∀ e ∈ error, ¬ e.isStray) :
    exchange setup command s = (.ok (t.typedSince s ++ errorText error), t) := by
  rw [exchange, hline]
  rcases error with _ | _ | _ | x
  · exact congrArg (fun text => (Except.ok text, t)) String.append_empty.symm
  · rfl
  · rfl
  · exact absurd rfl (hstray (.stray x) rfl)

theorem State.Unbroken.typedSince {s t : State ω} (h : t.Unbroken s.typed) : WholeLines (t.typedSince s) := by
  obtain ⟨new, htyped, hnew⟩ := h.typed
  rw [State.typedSince, htyped, List.length_append, Nat.add_sub_cancel, List.take_left]
  exact hnew

theorem lines_output {typed : String} (htyped : WholeLines typed) {error : Option LineError}
    (herror : ∀ e, error = some e → OneLine e.message) :
    trimLines (programLines (typed ++ errorText error)) = outputLines typed error := by
  obtain ⟨ls, hls, rfl⟩ := htyped
  have hlines : (linesOf (unlines ls).toList).map String.ofList = ls := by
    rw [linesOf_unlines hls, List.map_map]
    simp
  have hempty : programLines "" = [""] := rfl
  rw [outputLines, hlines]
  cases error with
  | none =>
    rw [errorText, programLines_unlines hls, hempty, trimLines_append_empty, Option.map_none, Option.toList_none,
      List.append_nil]
  | some e =>
    have hmessage : OneLine ("Error: " ++ e.message) := (oneLine_literal rfl).append (herror e rfl)
    have hend : programLines ("Error: " ++ e.message ++ "\n") = ["Error: " ++ e.message, ""] := by
      have := programLines_unlines (List.forall_mem_singleton.mpr hmessage) ""
      simpa [hempty] using this
    rw [errorText, programLines_unlines hls, hend, Option.map_some, Option.toList_some,
      ← trimLines_append_empty (ls ++ ["Error: " ++ e.message]), List.append_assoc]
    rfl

theorem oneLine_outputLines {typed : String} (htyped : WholeLines typed) {error : Option LineError}
    (herror : ∀ e, error = some e → OneLine e.message) : ∀ l ∈ outputLines typed error, OneLine l := by
  obtain ⟨ls, hls, rfl⟩ := htyped
  intro l hl
  rcases List.mem_append.mp (mem_of_mem_trimLines hl) with hl | hl
  · rw [linesOf_unlines hls, List.map_map] at hl
    exact hls l (by simpa using hl)
  · obtain ⟨e, he, rfl⟩ := Option.map_eq_some_iff.mp (Option.mem_toList.mp hl)
    exact (oneLine_literal rfl).append (herror e he)

/-! ## Replay -/

theorem Recording.mismatch?_exchange (command : String) {output : String} {ls : List String} {change : Option (List String)}
    (houtput : trimLines (programLines output) = ls) (htrimmed : trimLines ls = ls)
    (hchange : ∀ block ∈ change, trimLines block ≠ ls) (n : Nat) :
    (exchange ⟨command, ls, change⟩ n).mismatch? output = mismatch? ⟨command, ls, change⟩ n := by
  rw [Exchange.mismatch?, houtput, exchange, block, mismatch?]
  cases change with
  | none =>
    dsimp only [Option.getD_none, Option.map_none]
    rw [if_pos htrimmed.symm]
  | some block =>
    dsimp only [Option.getD_some, Option.map_some]
    rw [if_neg (hchange block rfl).symm]

theorem State.start_unbroken (setup : Setup ω) (world : ω) : (setup.start world).Unbroken (setup.start world).typed where
  environment := ⟨List.forall_mem_nil _, fun t ht => absurd ht (Array.not_mem_empty t)⟩
  program := ⟨Program.ordered_empty, by rintro _ ⟨_, ⟨⟩⟩⟩
  typed := ⟨[], rfl, wholeLines_empty⟩

section
variable (hsetup : setup.Unbroken)
include hsetup

omit hsetup in
theorem recordings_cons {command : String} {s t : State ω} {error : Option LineError}
    (hline : evaluateLine setup command s = (error, t)) (change : Option (List String))
    (script : List (String × Option (List String))) : recordings setup ((command, change) :: script) s =
      if error.any LineError.isStray then []
      else ⟨command, outputLines (t.typedSince s) error, change⟩ :: recordings setup script t := by
  rw [recordings, hline]
  rcases error with _ | _ | _ | _ <;> rfl

theorem recordings_sound (script : List (String × Option (List String))) : ∀ s : State ω, s.Unbroken s.typed →
    (∀ p ∈ script, OneLine p.1) → ∀ r ∈ recordings setup script s,
      (r.command, r.change) ∈ script ∧ ∀ l ∈ r.output, OneLine l := by
  induction script with
  | nil => exact fun _ _ _ => List.forall_mem_nil _
  | cons p script ih =>
    intro s hs hcommands
    obtain ⟨command, change⟩ := p
    obtain ⟨hcommand, hcommands⟩ := List.forall_mem_cons.mp hcommands
    have hunbroken := evaluateLine_unbroken hsetup hcommand hs
    rcases hline : evaluateLine setup command s with ⟨error, t⟩
    rw [hline] at hunbroken
    obtain ⟨hmessage, ht⟩ := hunbroken
    have houtput := oneLine_outputLines ht.typedSince hmessage
    rw [recordings_cons hline]
    split
    · exact List.forall_mem_nil _
    · refine List.forall_mem_cons.mpr ⟨⟨List.mem_cons_self, houtput⟩, fun r hr => ?_⟩
      obtain ⟨hmem, hr⟩ := ih t ht.rebased hcommands r hr
      exact ⟨List.mem_cons_of_mem _ hmem, hr⟩

omit hsetup in
theorem recordings_commands (script : List (String × Option (List String))) (s : State ω)
    (hstray : ∀ e ∈ (evaluateLines setup (script.map (·.1)) s).1, ¬ e.isStray) :
    (recordings setup script s).map (·.command) = script.map (·.1) := by
  induction script generalizing s with
  | nil => rfl
  | cons p script ih =>
    rw [List.map_cons, evaluateLines] at hstray
    rcases hline : evaluateLine setup p.1 s with ⟨error, t⟩
    rw [hline] at hstray
    obtain ⟨hfirst, hrest⟩ := List.forall_mem_append.mp hstray
    have hnot : ¬ error.any LineError.isStray := fun hany => by
      obtain ⟨e, he, hstray⟩ := (Option.any_eq_true _ _).mp hany
      exact hfirst e (Option.mem_toList.mpr he) hstray
    rw [recordings_cons hline, if_neg hnot, List.map_cons, List.map_cons, ih t hrest]

omit hsetup in
theorem replayFrom_cons {command : String} {s t : State ω} {error : Option LineError}
    (hline : evaluateLine setup command s = (error, t)) (hstray : ∀ e ∈ error, ¬ e.isStray) (n : Nat)
    (expected : List String) (xs : List Exchange) :
    replayFrom setup (⟨n, command, expected⟩ :: xs) s =
      { replayFrom setup xs t with mismatches :=
          (Exchange.mismatch? ⟨n, command, expected⟩ (t.typedSince s ++ errorText error)).toList ++
            (replayFrom setup xs t).mismatches } := by
  rw [replayFrom, exchange_of_line hline hstray]

theorem replayFrom_recordings (script : List (String × Option (List String))) : ∀ (s : State ω) (n : Nat), s.Unbroken s.typed →
    (∀ p ∈ script, OneLine p.1) →
    (∀ r ∈ recordings setup script s, ∀ block ∈ r.change, trimLines block ≠ r.output) →
    replayFrom setup ((numbered n (recordings setup script s)).map fun e => e.2.exchange e.1) s =
      ⟨(numbered n (recordings setup script s)).filterMap fun e => e.2.mismatch? e.1, none,
        (evaluateLines setup ((recordings setup script s).map (·.command)) s).2.world⟩ := by
  induction script with
  | nil =>
    intro s n _ _ _
    rfl
  | cons p script ih =>
    intro s n hs hcommands hchanges
    obtain ⟨command, change⟩ := p
    obtain ⟨hcommand, hcommands⟩ := List.forall_mem_cons.mp hcommands
    have hunbroken := evaluateLine_unbroken hsetup hcommand hs
    rcases hline : evaluateLine setup command s with ⟨error, t⟩
    rw [hline] at hunbroken
    obtain ⟨hmessage, ht⟩ := hunbroken
    rw [recordings_cons hline] at hchanges ⊢
    by_cases hany : error.any LineError.isStray
    · rw [if_pos hany]
      rfl
    · rw [if_neg hany] at hchanges ⊢
      have hstray : ∀ e ∈ error, ¬ e.isStray := by
        rintro e rfl he
        exact hany he
      obtain ⟨hchange, hchanges⟩ := List.forall_mem_cons.mp hchanges
      have hmismatch := Recording.mismatch?_exchange command (lines_output ht.typedSince hmessage) (trimLines_trimLines _)
        hchange n
      rw [Recording.exchange] at hmismatch
      rw [numbered, List.map_cons, Recording.exchange, replayFrom_cons hline hstray, hmismatch,
        ih t _ ht.rebased hcommands hchanges, List.filterMap_cons, List.map_cons, evaluateLines, hline]
      dsimp only
      cases Recording.mismatch? _ n <;> rfl

/-- **Recorded sessions.** With other lines in the place of some outputs, a transcript has just the mismatches of these
commands, at the lines where they stand; without, it has none. All commands are recorded if none of them ends stray. -/
theorem replay_recorded (script : List (String × Option (List String))) (world : ω)
    (hcommands : ∀ p ∈ script, OneLine p.1 ∧ trimmed p.1 = p.1)
    (hblocks : ∀ r ∈ recordings setup script (setup.start world), ∀ l ∈ r.block, ¬ Marked l)
    (hchanges : ∀ r ∈ recordings setup script (setup.start world), ∀ block ∈ r.change,
      (∀ l ∈ block, OneLine l) ∧ trimLines block ≠ r.output) :
    let rs := recordings setup script (setup.start world)
    let t := (evaluateLines setup (rs.map (·.command)) (setup.start world)).2
    replay setup (transcript rs) world = .ok ⟨mismatches rs, none, t.world⟩ ∧
      ((∀ p ∈ script, p.2 = none) → replay setup (transcript rs) world = .ok ⟨[], none, t.world⟩) ∧
      ((∀ e ∈ (evaluateLines setup (script.map (·.1)) (setup.start world)).1, ¬ e.isStray) →
        rs.map (·.command) = script.map (·.1)) := by
  intro rs t
  have hstart := State.start_unbroken setup world
  have hlines : ∀ p ∈ script, OneLine p.1 := fun p hp => (hcommands p hp).1
  have hsound := recordings_sound hsetup script _ hstart hlines
  -- no line of the transcript has a break in it, so that it is read back as it was written
  have hwritten : ∀ l ∈ rs.flatMap Recording.lines, OneLine l := by
    intro l hl
    obtain ⟨r, hr, hl⟩ := List.mem_flatMap.mp hl
    obtain ⟨hmem, houtput⟩ := hsound r hr
    rcases List.mem_cons.mp hl with rfl | hl
    · exact (oneLine_literal rfl).append (hlines _ hmem)
    · unfold Recording.block at hl
      cases hc : r.change with
      | none => exact houtput l (by simpa [hc] using hl)
      | some block => exact (hchanges r hr block hc).1 l (by simpa [hc] using hl)
  have hread : readTranscript (transcript rs) = .ok ((numbered 1 rs).map fun e => e.2.exchange e.1) := by
    rw [readTranscript, transcript, linesOf_unlines hwritten, readExchanges_recordings rs 1 []]
    · rfl
    · exact fun r hr => ⟨(hcommands _ (hsound r hr).1).2, hblocks r hr⟩
  have hreplay : replay setup (transcript rs) world = .ok ⟨mismatches rs, none, t.world⟩ := by
    have hfrom := replayFrom_recordings hsetup script _ 1 hstart hlines fun r hr block hb => (hchanges r hr block hb).2
    rw [replay, hread]
    show Except.ok (replayFrom setup _ _) = _
    rw [hfrom]
    rfl
  refine ⟨hreplay, fun hnone => ?_, recordings_commands script _⟩
  have hclean : mismatches rs = [] := by
    refine List.filterMap_eq_nil_iff.mpr fun e he => ?_
    have hchange : e.2.change = none := hnone _ (hsound _ (mem_of_mem_numbered he)).1
    rw [Recording.mismatch?, hchange, Option.map_none]
  rw [hreplay, hclean]

end

end

/-! ## Statistics -/

section
variable {ω α β : Type}

theorem Registry.unbroken_empty : ({} : Registry ω).Unbroken where
  functions := List.forall_mem_nil _
  handlers := List.forall_mem_nil _
  rules := List.forall_mem_nil _
  lineEnds := List.forall_mem_nil _

/-- What is registered, even before a refusal, brings no line breaks. -/
def Registers (m : Registering ω α) : Prop := ∀ r : Registry ω, r.Unbroken → (m.run r).2.Unbroken

theorem Registers.bind {m : Registering ω α} {f : α → Registering ω β} (h : Registers m) (hf : ∀ a, Registers (f a)) :
    Registers (m >>= f) := by
  intro r hr
  have hs := h r hr
  rw [run_bind]
  rcases hrun : m.run r with ⟨_ | a, s⟩ <;> rw [hrun] at hs
  · exact hs
  · exact hf a s hs

theorem registers_function {g : AddedFunction ω} (hg : ∀ args, (∀ a ∈ args, a.Unbroken) → ∀ pos base,
    Speaks base Value.Unbroken (g.run args pos)) : Registers (Registry.addFunction g) := by
  intro r hr
  rw [Registry.addFunction_run]
  split
  · exact hr
  · split
    · exact hr
    · exact ⟨List.forall_mem_append.mpr ⟨hr.functions, List.forall_mem_singleton.mpr hg⟩, hr.handlers, hr.rules, hr.lineEnds⟩

theorem Statistics.registers_register : Registers (register : Registering ω Unit) := by
  have hmetadata : Registers (Registry.addMetadata { name := "stats", version := "0.1.0" } : Registering ω Unit) := fun _ hr =>
    ⟨hr.functions, hr.handlers, hr.rules, hr.lineEnds⟩
  have hsample : ∀ name doc f, Registers (Registry.addFunction (ofSample name doc f) : Registering ω Unit) := fun _ _ f =>
    registers_function fun args _ _ base => speaks_marked (v := .number (f (args.map Value.toNumber))) trivial
  exact hmetadata.bind fun _ => (hsample _ _ _).bind fun _ => (hsample _ _ _).bind fun _ => (hsample _ _ _).bind fun _ =>
    hsample _ _ _

end

/-- With another line in the place of the output of the third command. -/
theorem replay_recorded_changed :
    let setup : Setup Unit := { registry := (Statistics.register.run {}).2, sink := taking fun _ w => w }
    let script : List (String × Option (List String)) := [("Type mean(1, 2), x, 1.", none), ("Set x = 2.", none),
      ("Type x.", some ["3", ""]), ("Type \"\", x.", none), ("Typ x.", none)]
    let text := transcript (recordings setup script (setup.start ()))
    setup.Unbroken ∧
      text = "> Type mean(1, 2), x, 1.\n1.5\nError: No such variable: x\n> Set x = 2.\n> Type x.\n3\n\n" ++
        "> Type \"\", x.\n\n2\n> Typ x.\nError: Expecting verb to start command, got 'Typ' at column 1\n" ∧
      replay setup text () = .ok ⟨[⟨5, "Type x.", ["3"], ["2"]⟩], none, ()⟩ := by
  intro setup script text
  have hsetup : setup.Unbroken := ⟨Statistics.registers_register {} Registry.unbroken_empty, fun _ _ => rfl⟩
  obtain ⟨hblocks, hchanges, hmismatches⟩ :
      (∀ r ∈ recordings setup script (setup.start ()), ∀ l ∈ r.block, ¬ Marked l) ∧
      (∀ r ∈ recordings setup script (setup.start ()), ∀ block ∈ r.change,
        (∀ l ∈ block, OneLine l) ∧ trimLines block ≠ r.output) ∧
      mismatches (recordings setup script (setup.start ())) = [⟨5, "Type x.", ["3"], ["2"]⟩] := by
    decide +kernel
  obtain ⟨hreplay, -⟩ := replay_recorded hsetup script () (by decide +kernel) hblocks hchanges
  have hworld (t : State Unit) : t.world = () := rfl
  refine ⟨hsetup, by decide +kernel, ?_⟩
  rw [hreplay, hmismatches, hworld]

end JossLang
