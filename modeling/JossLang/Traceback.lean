import JossLang.Session.State
import JossLang.Text.Json

/-!
# Tracebacks

Where a session was when a line failed: the frames that were under way, the
innermost last, each with the last log entry made under it. A traceback is
written as text or as a JSON report.
-/

namespace JossLang

structure TracedFrame where
  activity : Activity
  pos : Option Location
  entry : Option Entry

/-- The frames of a state. A frame without an entry is where it was called from. -/
def State.trace {ω : Type} (s : State ω) : List TracedFrame :=
  s.frames.reverse.map fun f =>
    match s.log.lastOfFrame? f.number with
    | some e => ⟨f.activity, e.pos, some e⟩
    | none => ⟨f.activity, f.caller, none⟩

namespace TracedFrame

def lines (verbose : Bool) (f : TracedFrame) : List String :=
  let place := match f.pos with
    | none => ["  " ++ f.activity.label ++ " at unknown location"]
    | some p =>
      ("  " ++ f.activity.label ++ " at line " ++ spellInt p.line ++ ", column " ++ spellNat p.column) ::
        (if p.statement.isEmpty then [] else ["    " ++ p.statement])
  let state := match f.entry with
    | none => []
    | some e =>
      ("    state " ++ e.toState ++ " (log index " ++ spellNat e.index ++ ")") ::
        (match verbose, e.snapshot with
        | true, some (n :: ns) =>
          ["    env: " ++ ", ".intercalate ((n :: ns).map fun (name, text) => name ++ "=" ++ text)]
        | _, _ => [])
  place ++ state

end TracedFrame

def State.tracebackText {ω : Type} (s : State ω) (verbose : Bool) (e : RuntimeError) : String :=
  "\n".intercalate
    (["Traceback (innermost Do last):"] ++ s.trace.flatMap (·.lines verbose) ++
      [e.kind.label ++ ": " ++ e.message ++ " (rule: " ++
        (match e.rule with
        | none | some "" => "runtime"
        | some r => r) ++ ")"])

/-! ## Reports -/

def Location.report (p : Location) : Json :=
  .object [("file", .text p.file), ("line", .number p.line.toNat), ("column", .number p.column),
    ("statement", .text p.statement)]

def TracedFrame.report (index : Nat) (f : TracedFrame) : Json :=
  .object
    ([("frame_index", .number index), ("name", .text f.activity.label)] ++
      (match f.pos with
      | none => []
      | some p => [("source_location", p.report)]) ++
      (match f.entry with
      | none => []
      | some e =>
        [("state_id", .text e.toState), ("step_index", .number e.index)] ++
          (match e.snapshot with
          | none => []
          | some names => [("env_snapshot", .object (names.map fun (name, text) => (name, .text text)))])))

def State.tracebackReport {ω : Type} (s : State ω) (e : RuntimeError) : String :=
  Json.render 0
    (.object [
      ("error", .object [("type", .text e.kind.label), ("message", .text e.message),
        ("rule", .ofOption e.rule),
        ("failing_step_index", (match e.step with | none => .null | some n => .number n))]),
      ("traceback", .list (s.trace.zipIdx.map fun (f, i) => f.report i))])

end JossLang
