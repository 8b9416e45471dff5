import JossLang.CommandLine.Folder
import JossLang.CommandLine.Options
import JossLang.Extension.Script
import JossLang.Traceback
import JossLang.Transcript

/-!
# Tasks of the program

What a command line asks for: checking a transcript, listing the functions,
running a program, or reading lines from a prompt. A task ends with a status,
and with what it showed on the console.
-/

namespace JossLang

structure Outcome where
  status : Nat
  console : Console
  stray : Option Stray := none

inductive Task where
  | transcript (path : String)
  | listing
  | missingProgram
  | prompt
  | literal (text : String)
  | file (path : String)
deriving DecidableEq, Repr

def Options.plainTask (o : Options) : Task :=
  if o.listing then .listing
  else match o.program with
    | none => if o.literal then .missingProgram else .prompt
    | some p => if o.literal then .literal p else .file p

def Options.task (o : Options) : Task :=
  match o.transcript with
  | none | some "" => o.plainTask
  | some path => .transcript path

/-! ## Extensions -/

/-- What running the source of an extension comes to: the module it defines, and what it did to the console. -/
abbrev Importer := String → Console → Module Console × Console

abbrev Loading := ExceptT RegistrationFault (StateM (Registry Console × Console))

def findSource (folder : Folder) (path : String) : Except RegistrationFault String :=
  let full := Path.absolute folder.working path
  match folder.files.lookup full with
  | none => .error (.notFound full)
  | some text => if Path.isSource full then .ok text else .error (.notImportable full)

def loadModule (importer : Importer) (folder : Folder) (path : String) : Loading Unit := fun (registry, console) =>
  match findSource folder path with
  | .error f => (.error f, registry, console)
  | .ok text =>
    let (m, console) := importer text console
    let (result, registry) := (m.load (Path.stem path)).run registry
    (result, registry, console)

def loadModules (importer : Importer) (folder : Folder) : List String → Loading Unit
  | [] => pure ()
  | path :: paths => do
    loadModule importer folder path
    loadModules importer folder paths

/-! ## Showing errors -/

def extensionComplaint (f : RegistrationFault) : String := "ExtensionError: " ++ f.message ++ "\n"

def complaint (setup : Setup Console) (report : Bool) (s : State Console) : LineError → String
  | .parse e => "ParseError: " ++ e.message ++ "\n"
  | .runtime e =>
    s.tracebackText setup.verbose e ++ "\n" ++ (if report then s.tracebackReport e ++ "\n" else "")
  | .stray _ => ""

def showLine (setup : Setup Console) (report : Bool) (line : String) (s : State Console) :
    Option LineError × State Console :=
  match evaluateLine setup line s with
  | (none, s') => (none, s')
  | (some e, s') => (some e, { s' with world := s'.world.complain (complaint setup report s' e) })

/-! ## Running -/

/-- Evaluates lines one after the other, each behind a prompt. What is stray ends them all. -/
def showLines (setup : Setup Console) (report : Bool) (prompt : String) :
    List String → State Console → List LineError × State Console
  | [], s => ([], s)
  | l :: ls, s =>
    match showLine setup report l { s with world := s.world.print prompt } with
    | (some (.stray x), s') => ([.stray x], s')
    | (e, s') =>
      let (es, s'') := showLines setup report prompt ls s'
      (e.toList ++ es, s'')

def strayOf? (errors : List LineError) : Option Stray :=
  errors.findSome? fun
    | .stray x => some x
    | _ => none

def runProgram (setup : Setup Console) (report : Bool) (text : String) (console : Console) : Outcome :=
  match setup.build with
  | .error f => ⟨1, console.complain (extensionComplaint f), none⟩
  | .ok _ =>
    let (errors, s) := showLines setup report "" (programLines text) (setup.start console)
    ⟨if errors.isEmpty then 0 else 1, s.world, strayOf? errors⟩

def banner : String :=
  "\x1b[38;2;153;221;255mJOSS\x1b[0m REPL. One command per line, end-of-file to quit.\n"

def promptText : String := "\x1b[38;2;153;221;255m>\x1b[0m "

/-- The lines of an input; what follows its last newline is a line only if it is not empty. -/
def inputLines (input : String) : List String :=
  let lines := programLines input
  if lines.getLast? = some "" then lines.dropLast else lines

def runPrompt (setup : Setup Console) (input : String) (console : Console) : Outcome :=
  let console := console.print banner
  match setup.build with
  | .error f => ⟨1, console.complain (extensionComplaint f), none⟩
  | .ok _ =>
    let (errors, s) := showLines setup false promptText (inputLines input) (setup.start console)
    match strayOf? errors with
    | some x => ⟨1, s.world, some x⟩
    | none => ⟨0, (s.world.print promptText).print "\n", none⟩

def listFunctions (setup : Setup Console) (console : Console) : Outcome :=
  match setup.build with
  | .error f => ⟨1, console.complain (extensionComplaint f), none⟩
  | .ok _ => ⟨0, console.print (String.join (setup.listing.map (· ++ "\n"))), none⟩

def transcriptComplaint (path reason : String) : String :=
  "Failed to run session " ++ path ++ ": " ++ reason ++ "\n"

def checkTranscript (setup : Setup Console) (path text : String) (console : Console) : Outcome :=
  match setup.build with
  | .error f => ⟨1, console.complain (transcriptComplaint path f.message), none⟩
  | .ok _ =>
    match replay setup text console with
    | .error line => ⟨1, console.complain (transcriptComplaint path (transcriptFault line)), none⟩
    | .ok r =>
      match r.stray with
      | some x => ⟨1, r.world, some x⟩
      | none =>
        ⟨if r.mismatches.isEmpty then 0 else 1,
          r.world.complain (String.join (r.mismatches.map (·.describe ++ "\n"))), none⟩

/-- What the program has from its host. -/
structure Host where
  importer : Importer
  limits : Limits := {}
  elementary : Elementary := .nearest

def Options.setup (o : Options) (host : Host) (registry : Registry Console) : Setup Console :=
  match o.task with
  | .transcript _ =>
    { file := "<session>", sparse := o.sparse, registry := registry, sink := taking fun _ c => c
      limits := host.limits, elementary := host.elementary }
  | task =>
    let file := match task with
      | .prompt => "<repl>"
      | .file path => path
      | _ => "<string>"
    { file := file, verbose := o.verbose, sparse := o.sparse, registry := registry, sink := Console.type
      limits := host.limits, elementary := host.elementary }

def Options.run (o : Options) (host : Host) (folder : Folder) (input : String) : Outcome :=
  match (loadModules host.importer folder o.extensions).run ({}, {}) with
  | (.error f, _, console) => ⟨1, console.complain (extensionComplaint f), none⟩
  | (.ok _, registry, console) =>
    let setup := o.setup host registry
    match o.task with
    | .transcript path =>
      match folder.read path with
      | .ok text => checkTranscript setup path text console
      | .error f => ⟨1, console.complain (transcriptComplaint path (f.message path)), none⟩
    | .listing => listFunctions setup console
    | .missingProgram => ⟨1, console.complain "-source requires a program string\n", none⟩
    | .prompt => runPrompt setup input console
    | .literal text => runProgram setup o.report text console
    | .file path =>
      match folder.read path with
      | .ok text => runProgram setup o.report text console
      | .error f =>
        ⟨1, console.complain ("Failed to read " ++ path ++ ": " ++ f.message path ++ "\n"), none⟩

def runCommandLine (args : List String) (host : Host) (folder : Folder) (input : String) : Except Exit Outcome := do
  return (← Options.read args).run host folder input

end JossLang
