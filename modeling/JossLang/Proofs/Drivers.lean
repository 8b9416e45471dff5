import JossLang.CommandLine.Task
import JossLang.Proofs.ErrorOutput
import JossLang.Proofs.FurtherLimits
import JossLang.Proofs.OneLine

/-!
# Drivers

There are three ways to evaluate a text: piece by piece, line by line, and as a program whose errors are shown. They
raise the same errors and end in the same state, wherever the text is cut into pieces, and what is shown is one report
for each error (`drivers_agree`). Each may leave another room for steps and calls, as long as no line needs more.
-/

namespace JossLang

variable {ω : Type}

/-! ## Pieces of a text -/

theorem splitNewlines_append (cs ds : List Char) :
    splitNewlines (cs ++ '\n' :: ds) = splitNewlines cs ++ splitNewlines ds := by
  induction cs with
  | nil => simp [splitNewlines]
  | cons c cs ih =>
    rw [List.cons_append, splitNewlines, splitNewlines, ih]
    by_cases hc : c = '\n'
    · simp [hc]
    · rw [if_neg hc, if_neg hc]
      cases hcs : splitNewlines cs with
      | nil => exact absurd hcs (splitNewlines_ne_nil cs)
      | cons l ls => simp [consLine]

theorem programLines_intercalate {pieces : List String} (hne : pieces ≠ []) :
    programLines ("\n".intercalate pieces) = pieces.flatMap programLines := by
  induction pieces with
  | nil => exact absurd rfl hne
  | cons p ps ih =>
    cases ps with
    | nil => simp [String.intercalate_singleton]
    | cons q qs =>
      rw [String.intercalate_cons_cons, List.flatMap_cons, ← ih (List.cons_ne_nil q qs)]
      unfold programLines
      rw [← List.map_append, ← splitNewlines_append]
      simp

def evaluatePieces (setup : Setup ω) : List String → State ω → List LineError × State ω
  | [], s => ([], s)
  | p :: ps, s =>
    let (es, s') := evaluateText setup p s
    let (es', s'') := evaluatePieces setup ps s'
    (es ++ es', s'')

section
variable (setup : Setup ω)

theorem evaluateLines_errors_append (ms : List String) : ∀ (ls : List String) (s : State ω),
    (evaluateLines setup (ls ++ ms) s).1 =
      (evaluateLines setup ls s).1 ++ (evaluateLines setup ms (evaluateLines setup ls s).2).1
  | [], _ => rfl
  | l :: ls, s => by
    simp only [List.cons_append, evaluateLines, List.append_assoc]
    rw [evaluateLines_errors_append ms ls]

theorem evaluatePieces_eq (pieces : List String) (s : State ω)
    (h : ∀ e ∈ (evaluateLines setup (pieces.flatMap programLines) s).1, ¬ e.isStray) :
    evaluatePieces setup pieces s = evaluateLines setup (pieces.flatMap programLines) s := by
  induction pieces generalizing s with
  | nil => rfl
  | cons p ps ih =>
    rw [List.flatMap_cons, evaluateLines_errors_append] at h
    obtain ⟨hfirst, hrest⟩ := List.forall_mem_append.mp h
    have htext : evaluateText setup p s = evaluateLines setup (programLines p) s := evaluateUntilStray_eq _ hfirst
    simp only [evaluatePieces, htext, ih _ hrest, List.flatMap_cons]
    exact Prod.ext (evaluateLines_errors_append setup _ _ s).symm (evaluateLines_append _ _ s).symm

/-! ## Line by line -/

theorem lineByLine_errors : ∀ (ls : List String) (s : State ω),
    (lineByLine setup ls s).filterMap (·.1) = (evaluateLines setup ls s).1
  | [], _ => rfl
  | l :: ls, s => by
    rw [lineByLine, evaluateLines]
    have ih := lineByLine_errors ls (evaluateLine setup l s).2
    cases he : (evaluateLine setup l s).1 with
    | none => simp [he, ih]
    | some e => simp [he, ih]

theorem foldl_evaluateLine : ∀ (ls : List String) (s : State ω),
    ls.foldl (fun s l => (evaluateLine setup l s).2) s = (evaluateLines setup ls s).2
  | [], _ => rfl
  | l :: ls, s => foldl_evaluateLine ls (evaluateLine setup l s).2

end

/-! ## Programs -/

def failures (setup : Setup ω) (ls : List String) (s : State ω) : List (LineError × State ω) :=
  (lineByLine setup ls s).filterMap fun x => x.1.map (·, x.2)

theorem failures_errors (setup : Setup ω) (ls : List String) (s : State ω) :
    (failures setup ls s).map (·.1) = (evaluateLines setup ls s).1 := by
  rw [← lineByLine_errors, failures, List.map_filterMap]
  congr 1
  funext x
  cases x.1 <;> rfl

def reportsOf (setup : Setup Console) (report : Bool) (ls : List String) (s : State Console) : List String :=
  (failures setup ls s).map fun x => complaint setup report x.2 x.1

theorem complaint_withErr (setup : Setup Console) (report : Bool) (s : State Console) (err : String) (e : LineError) :
    complaint setup report (s.withErr err) e = complaint setup report s e := by
  cases e <;> rfl

/-- No line is stopped by something stray, or for lack of room. -/
def Undisturbed (setup : Setup ω) (ls : List String) (s : State ω) : Prop :=
  ∀ x ∈ lineByLine setup ls s, ∀ e ∈ x.1, ¬ e.isStray ∧ ¬ e.isLimit

theorem Undisturbed.not_stray {setup : Setup ω} {ls : List String} {s : State ω} (h : Undisturbed setup ls s) :
    ∀ e ∈ (evaluateLines setup ls s).1, ¬ e.isStray := by
  rw [← lineByLine_errors]
  intro e he
  obtain ⟨x, hx, he⟩ := List.mem_filterMap.mp he
  exact (h x hx e he).1

theorem Undisturbed.not_limit {setup : Setup ω} {ls : List String} {s : State ω} (h : Undisturbed setup ls s) :
    ∀ x ∈ lineByLine setup ls s, ¬ x.1.any LineError.isLimit := by
  intro x hx hany
  obtain ⟨e, he, hlimit⟩ := (Option.any_eq_true _ _).mp hany
  exact (h x hx e he).2 hlimit

/-- Sessions that need no more room than they have do the same. -/
theorem Undisturbed.lineByLine_eq {setup : Setup ω} {limits : Limits} {ls : List String} {s : State ω}
    (h : Undisturbed setup ls s) (h' : Undisturbed (setup.withLimits limits) ls s)
    (hvalues : limits.values = setup.limits.values) :
    lineByLine (setup.withLimits limits) ls s = lineByLine setup ls s := by
  let further := setup.limits.further limits
  have hleft : lineByLine (setup.withLimits further) ls s = lineByLine setup ls s :=
    lineByLine_withLimits (setup.limits.within_further limits) ls s h.not_limit
  have hright : lineByLine (setup.withLimits further) ls s = lineByLine (setup.withLimits limits) ls s :=
    @lineByLine_withLimits _ (setup.withLimits limits) further (Limits.within_further_right hvalues) ls s h'.not_limit
  exact hright.symm.trans hleft

theorem evaluateLines_state (setup : Setup ω) (ls : List String) (s : State ω) :
    (evaluateLines setup ls s).2 = ((lineByLine setup ls s).map (·.2)).getLastD s := by
  induction ls generalizing s with
  | nil => rfl
  | cons l ls ih =>
    rw [lineByLine, List.map_cons, List.getLastD_cons, ← ih]
    rfl

/-- So they end with the same errors, and in the same state. -/
theorem Undisturbed.evaluateLines_eq {setup : Setup ω} {limits : Limits} {ls : List String} {s : State ω}
    (h : Undisturbed setup ls s) (h' : Undisturbed (setup.withLimits limits) ls s)
    (hvalues : limits.values = setup.limits.values) :
    evaluateLines (setup.withLimits limits) ls s = evaluateLines setup ls s := by
  have hlines := h.lineByLine_eq h' hvalues
  refine Prod.ext ?_ ?_
  · rw [← lineByLine_errors, ← lineByLine_errors, hlines]
  · rw [evaluateLines_state, evaluateLines_state, hlines]

section
variable {setup : Setup Console} (h : setup.LeavesErr) (report : Bool)
include h

theorem showLine_withErr (l : String) (s : State Console) (err : String) :
    showLine setup report l (s.withErr err) =
      ((evaluateLine setup l s).1, (evaluateLine setup l s).2.withErr
        (err ++ String.join ((evaluateLine setup l s).1.toList.map (complaint setup report (evaluateLine setup l s).2)))) := by
  rw [showLine, evaluateLine_withErr h]
  generalize evaluateLine setup l s = x
  obtain ⟨e | _, t⟩ := x
  · simp [State.withErr]
  · simp only [complaint_withErr]
    simp [State.withErr, Console.complain]

omit h in
theorem reportsOf_cons (l : String) (ls : List String) (s : State Console) :
    reportsOf setup report (l :: ls) s =
      (evaluateLine setup l s).1.toList.map (complaint setup report (evaluateLine setup l s).2) ++
        reportsOf setup report ls (evaluateLine setup l s).2 := by
  rw [reportsOf, failures, lineByLine, List.filterMap_cons]
  cases (evaluateLine setup l s).1 <;> rfl

theorem showLines_withErr (ls : List String) (s : State Console) (err : String)
    (hstray : ∀ e ∈ (evaluateLines setup ls s).1, ¬ e.isStray) :
    showLines setup report "" ls (s.withErr err) = ((evaluateLines setup ls s).1,
      (evaluateLines setup ls s).2.withErr (err ++ String.join (reportsOf setup report ls s))) := by
  induction ls generalizing s err with
  | nil => simp [showLines, evaluateLines, reportsOf, failures, lineByLine]
  | cons l ls ih =>
    rw [evaluateLines] at hstray ⊢
    obtain ⟨hl, hls⟩ := List.forall_mem_append.mp hstray
    have hprompt : ({ s.withErr err with world := (s.withErr err).world.print "" } : State Console) = s.withErr err := by
      simp [Console.print]
    rw [showLines, hprompt, showLine_withErr h, reportsOf_cons]
    rcases hline : evaluateLine setup l s with ⟨_ | (_ | _ | x), t⟩
    case some.stray => exact absurd rfl (hl (.stray x) (by rw [hline]; exact List.mem_singleton_self _))
    all_goals
      rw [hline] at hls
      simp [ih t _ hls, String.append_assoc]

theorem evaluateLines_err : ∀ (ls : List String) (s : State Console), (evaluateLines setup ls s).2.world.err = s.world.err
  | [], _ => rfl
  | l :: ls, s => (evaluateLines_err ls _).trans (evaluateLine_err h l s)

end

def Options.HasProgram (o : Options) (folder : Folder) (text : String) : Prop :=
  o.task = .literal text ∨ ∃ path, o.task = .file path ∧ folder.read path = .ok text

theorem Options.run_program {o : Options} {folder : Folder} {text : String} (hprogram : o.HasProgram folder text)
    {host : Host} {registry : Registry Console} {console : Console}
    (hload : (loadModules host.importer folder o.extensions).run ({}, {}) = (.ok (), registry, console)) (input : String) :
    o.run host folder input = runProgram (o.setup host registry) o.report text console := by
  unfold run
  rw [hload]
  rcases hprogram with htask | ⟨path, htask, hread⟩
  · simp only [htask]
  · simp only [htask, hread]

theorem reportsOf_withLimits {setup : Setup Console} {limits : Limits} {ls : List String} {s : State Console}
    (h : Undisturbed setup ls s) (h' : Undisturbed (setup.withLimits limits) ls s) (hvalues : limits.values = setup.limits.values)
    (report : Bool) : reportsOf (setup.withLimits limits) report ls s = reportsOf setup report ls s := by
  have hcomplaint : complaint (setup.withLimits limits) report = complaint setup report := by
    funext s e
    cases e <;> rfl
  rw [reportsOf, reportsOf, failures, failures, h.lineByLine_eq h' hvalues, hcomplaint]

theorem Setup.LeavesErr.withLimits {setup : Setup Console} (h : setup.LeavesErr) (limits : Limits) :
    (setup.withLimits limits).LeavesErr := ⟨h.toLeavesErr, h.sink⟩

/-- **Drivers.** However a text is cut at newlines, its pieces, its lines and the program of the text have the same
errors and end in the same state, but for the error output; the program adds to that one report for each error, in
their order, and ends with status 1 if there are any. What is registered leaves the error output alone, and lines are
stopped by errors of the language only, though each driver may leave them another room. -/
theorem drivers_agree {setup : Setup Console} (h : setup.LeavesErr) (report : Bool) {text : String} {pieces : List String}
    (hne : pieces ≠ []) (hcut : "\n".intercalate pieces = text) {s : State Console}
    (hpieces : Undisturbed setup (programLines text) s)
    {byLine program : Limits} (hbyLine : Undisturbed (setup.withLimits byLine) (programLines text) s)
    (hprogram : Undisturbed (setup.withLimits program) (programLines text) s)
    (hvalues : byLine.values = setup.limits.values ∧ program.values = setup.limits.values) :
    let ls := programLines text
    let errors := (evaluateText setup text s).1
    let t := (evaluateText setup text s).2
    let shown := t.withErr (s.world.err ++ String.join (reportsOf setup report ls s))
    evaluatePieces setup pieces s = (errors, t) ∧
      (lineByLine (setup.withLimits byLine) ls s).filterMap (·.1) = errors ∧
      ls.foldl (fun s l => (evaluateLine (setup.withLimits byLine) l s).2) s = t ∧ t.world.err = s.world.err ∧
      (failures setup ls s).map (·.1) = errors ∧
      showLines (setup.withLimits program) report "" ls s = (errors, shown) ∧
      ∀ (o : Options) (host : Host) folder input registry console table,
        (loadModules host.importer folder o.extensions).run ({}, {}) = (.ok (), registry, console) →
        o.HasProgram folder text → o.setup host registry = setup.withLimits program → o.report = report →
        setup.build = .ok table → s = setup.start console →
        o.run host folder input = ⟨if errors = [] then 0 else 1, shown.world, none⟩ := by
  intro ls errors t shown
  have htext : evaluateText setup text s = evaluateLines setup ls s := evaluateUntilStray_eq ls hpieces.not_stray
  have hall : (evaluateLines setup ls s).1 = errors ∧ (evaluateLines setup ls s).2 = t := by
    rw [← htext]
    exact ⟨rfl, rfl⟩
  have hlines : showLines (setup.withLimits program) report "" ls s = (errors, shown) := by
    have hshow := showLines_withErr (h.withLimits program) report ls s s.world.err hprogram.not_stray
    rw [hpieces.evaluateLines_eq hprogram hvalues.2, reportsOf_withLimits hpieces hprogram hvalues.2, hall.1, hall.2] at hshow
    exact hshow
  refine ⟨?_, ?_, ?_, ?_, ?_, hlines, ?_⟩
  · have hflat : pieces.flatMap programLines = ls := by rw [← programLines_intercalate hne, hcut]
    rw [evaluatePieces_eq setup pieces s (hflat ▸ hpieces.not_stray), hflat, ← htext]
  · rw [lineByLine_errors, hpieces.evaluateLines_eq hbyLine hvalues.1, hall.1]
  · rw [foldl_evaluateLine, hpieces.evaluateLines_eq hbyLine hvalues.1, hall.2]
  · rw [← hall.2, evaluateLines_err h ls s]
  · rw [failures_errors, hall.1]
  · intro o host folder input registry console table hload hprogram hsetup hreport hbuild hs
    have hstray : strayOf? errors = none := by
      refine List.findSome?_eq_none_iff.mpr fun e he => ?_
      have hstray := hpieces.not_stray e (hall.1 ▸ he)
      cases e with
      | parse _ | runtime _ => rfl
      | stray _ => exact absurd rfl hstray
    have hbuild : (setup.withLimits program).build = .ok table := hbuild
    rw [Options.run_program hprogram hload, hsetup, hreport, runProgram, hbuild]
    dsimp only
    rw [show (setup.withLimits program).start console = s from hs.symm, hlines, hstray]
    simp only [List.isEmpty_iff]

/-! ## An extension -/

theorem Script.leavesErr_argument (i : Nat) (name : String) (args : List Value) (pos : Location) :
    LeavesErr ((Body.argument i).run name args pos) := by
  show LeavesErr (required args[i]?)
  cases args[i]? with
  | some v => exact leavesErr_pure v
  | none => exact leavesErr_throw _

theorem loadModules_single {importer : Importer} {folder : Folder} {path text : String} {m : Module Console}
    {registry : Registry Console} {console : Console} (hsource : findSource folder path = .ok text)
    (himport : importer text {} = (m, console)) (hload : (m.load (Path.stem path)).run {} = (.ok (), registry)) :
    (loadModules importer folder [path]).run ({}, {}) = (.ok (), registry, console) := by
  have hmodule : (loadModule importer folder path).run ({}, {}) = (.ok (), registry, console) := by
    show (loadModule importer folder path) ({}, {}) = _
    rw [loadModule, hsource]
    dsimp only
    rw [himport]
    dsimp only
    rw [hload]
  rw [loadModules, run_bind, hmodule]
  rfl

def pickSource : String :=
  "def joss_register(ext):\n    ext.register_function(\"pick\", 2, None, lambda interpreter, args, location: args[1])\n"

def pick : AddedFunction Console := ⟨"pick", ⟨2, none⟩, "", (Script.Body.argument 1).run "pick"⟩

def pickImporter : Importer := fun text console =>
  if text = pickSource then ({ register := some fun _ => Registry.addFunction pick }, console)
  else ({ register := none }, console)

def pickFolder : Folder := { working := "/w", files := [("/w/pick.py", pickSource)] }

theorem loadModules_pick :
    (loadModules pickImporter pickFolder ["pick.py"]).run ({}, {}) = (.ok (), { functions := [pick] }, {}) := by
  have hname : isIdentifier pick.name.toList = true := rfl
  refine loadModules_single (show findSource pickFolder "pick.py" = .ok pickSource from rfl) (if_pos rfl) ?_
  show (Registry.addFunction pick).run {} = _
  rw [Registry.addFunction, hname]
  rfl

/-- A text in three pieces: a step fails that is run by another line, and a line that cannot be read is followed by one
that types. -/
theorem drivers_agree_pick :
    let pieces := ["1.1 Type pick(1, 2).\n1.2 Do part 7.", "\nDo part 1.", "Typo\nType pick(1, 3)."]
    let text := "1.1 Type pick(1, 2).\n1.2 Do part 7.\n\nDo part 1.\nTypo\nType pick(1, 3)."
    let o : Options := { program := some text, literal := true, extensions := ["pick.py"] }
    let host : Host := { importer := pickImporter, limits := { steps := 200 } }
    let setup := (o.setup host { functions := [pick] }).withLimits { steps := 300 }
    let s := setup.start {}
    let reports := reportsOf setup false (programLines text) s
    (setup.LeavesErr ∧ pieces ≠ [] ∧ "\n".intercalate pieces = text ∧ Undisturbed setup (programLines text) s ∧
        Undisturbed (setup.withLimits { steps := 50 }) (programLines text) s ∧
        Undisturbed (setup.withLimits host.limits) (programLines text) s) ∧
      evaluatePieces setup pieces s = evaluateText setup text s ∧
      (evaluateText setup text s).1.map LineError.label = ["JossUndefinedStepError", "JossParseError"] ∧
      reports.length = 2 ∧
      o.run host pickFolder "" = ⟨1, ((evaluateText setup text s).2.withErr (String.join reports)).world, none⟩ ∧
      (o.run host pickFolder "").console.out = "2\n3\n" := by
  intro pieces text o host setup s reports
  have hleaves : setup.LeavesErr :=
    { functions := List.forall_mem_singleton.mpr fun args pos => Script.leavesErr_argument 1 "pick" args pos
      handlers := List.forall_mem_nil _
      rules := List.forall_mem_nil _
      sink := fun _ c _ => by cases c with | mk _ _ _ refusal => cases refusal <;> rfl }
  have hcut : "\n".intercalate pieces = text := by decide +kernel
  have hbuild : setup.build.isOk = true := by decide +kernel
  obtain ⟨hundisturbed, herrors, hreports, hout⟩ :
      (Undisturbed setup (programLines text) s ∧ Undisturbed (setup.withLimits { steps := 50 }) (programLines text) s ∧
        Undisturbed (setup.withLimits host.limits) (programLines text) s) ∧
      (evaluateText setup text s).1.map LineError.label = ["JossUndefinedStepError", "JossParseError"] ∧
      reports.length = 2 ∧ (evaluateText setup text s).2.world.out = "2\n3\n" := by
    unfold Undisturbed
    decide +kernel
  have hne : (evaluateText setup text s).1 ≠ [] := by
    intro hnil
    rw [hnil] at herrors
    cases herrors
  obtain ⟨table, htable⟩ : ∃ table, setup.build = .ok table := by
    cases hb : setup.build with
    | ok table => exact ⟨table, rfl⟩
    | error f => rw [hb] at hbuild; cases hbuild
  obtain ⟨hpieces, -, -, -, -, -, hrun⟩ :=
    drivers_agree hleaves false (List.cons_ne_nil _ _) hcut hundisturbed.1 hundisturbed.2.1 hundisturbed.2.2 ⟨rfl, rfl⟩
  have hprogram := hrun o host pickFolder "" _ {} table loadModules_pick (.inl rfl) rfl rfl htable rfl
  rw [if_neg hne, show s.world.err = "" from rfl, String.empty_append] at hprogram
  refine ⟨⟨hleaves, List.cons_ne_nil _ _, hcut, hundisturbed⟩, hpieces, herrors, hreports, hprogram, ?_⟩
  rw [hprogram]
  exact hout

def loudSource : String :=
  "import sys\n\n\ndef joss_register(ext):\n    ext.on_event(\"output\", lambda interpreter, text: sys.stderr.write(\"!\"))\n"

def loudImporter : Importer := fun text console =>
  if text = loudSource then
    ({ register := some fun extension => Registry.addHandler "output" 0 extension fun _ => onConsole (·.complain "!") }, console)
  else ({ register := none }, console)

/-- A text without errors, of which an extension shows something on the error output; and lines that end with another
value of `n` where there is less room for steps. -/
theorem drivers_agree_fails :
    let o : Options := { program := some "Type 1.", literal := true, extensions := ["loud.py"] }
    let folder : Folder := { working := "/w", files := [("/w/loud.py", loudSource)] }
    let host : Host := { importer := loudImporter }
    let r := o.run host folder ""
    let setup := o.setup host ((loadModules loudImporter folder o.extensions).run ({}, {})).2.1
    let ls := ["Set n = 0.", "1.1 Set n = n + 1.", "1.2 Do part 1.", "Do part 1."]
    let counted := fun steps : Nat =>
      let s := (evaluateLines (Setup.plain.withLimits { steps := steps }) ls (Setup.plain.start "")).2
      (s.environment.get? Setup.plain.isBuiltin "n").map Value.written
    (evaluateText setup "Type 1." (setup.start {})).1.length = 0 ∧ r.status = 0 ∧ r.console.out = "1\n" ∧
      r.console.err = "!!" ∧ counted 8 = some "8" ∧ counted 9 = some "9" := by
  decide +kernel

end JossLang
