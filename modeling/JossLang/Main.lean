import JossLang.CommandLine.Task
import JossLang.Extension.Statistics

/-!
# The program

Reads the files that the command line names, and carries it out. Lines of a
prompt are shown as they come.
-/

namespace JossLang

def usage : String :=
  "usage: joss [-h] [-source] [-verbose] [--traceback-json] [--sparse-arrays] [--ext PATH] " ++
    "[--session FILE] [--list-functions] [program]\n"

def gatherAt (folder : Folder) (full : String) : IO Folder := do
  try
    let text ← IO.FS.readFile full
    return { folder with files := (full, text) :: folder.files }
  catch
    | .noFileOrDirectory .. => return folder
    | _ => return { folder with folders := full :: folder.folders }

def gather (folder : Folder) (path : String) : IO Folder := do
  let places := Path.places (Path.pieces (Path.joined folder.working path)) []
  (places.map (Path.spelled "/")).foldlM gatherAt folder

def display (c : Console) : IO Unit := do
  let out ← IO.getStdout
  out.putStr c.out
  out.flush
  IO.eprint c.err

/-- Of extensions only the statistics are known here, by the name that they give themselves. -/
def importKnown : Importer := fun text console =>
  if (programLines text).contains "JOSS_EXTENSION_NAME = \"stats\"" then (Statistics.module, console)
  else ({ register := none }, console)

def host : Host := { importer := importKnown }

/-- Reads lines until the end of the input, or until something stray stops it; the result is the status. -/
partial def prompt (setup : Setup Console) (s : State Console) : IO UInt32 := do
  let out ← IO.getStdout
  out.putStr promptText
  out.flush
  let line ← (← IO.getStdin).getLine
  if line.isEmpty then
    out.putStr "\n"
    return 0
  let (errors, s') := showLines setup false "" [String.ofList (line.toList.filter (· ≠ '\n'))] s
  display s'.world
  if (strayOf? errors).isSome then return 1
  prompt setup { s' with world := { s'.world with out := "", err := "" } }

def perform (o : Options) : IO UInt32 := do
  let working := (← IO.currentDir).toString
  let paths := o.extensions ++ (match o.task with
    | .transcript path | .file path => [path]
    | _ => [])
  let folder ← paths.foldlM gather { working := working, files := [] }
  match o.task, (loadModules host.importer folder o.extensions).run ({}, {}) with
  | .prompt, (.ok _, registry, console) =>
    let setup := o.setup host registry
    if setup.build.isOk then
      display (console.print banner)
      prompt setup (setup.start { console with out := "", err := "" })
    else
      let outcome := o.run host folder ""
      display outcome.console
      return UInt32.ofNat outcome.status
  | _, _ =>
    let outcome := o.run host folder ""
    display outcome.console
    return UInt32.ofNat outcome.status

end JossLang

def main (args : List String) : IO UInt32 := do
  match JossLang.Options.read args with
  | .ok o => JossLang.perform o
  | .error e =>
    if e = .help then IO.print JossLang.usage else IO.eprint JossLang.usage
    return UInt32.ofNat e.status
