import JossLang.Session.Execution
import JossLang.Text.Quoted

/-!
# Transcripts

A recorded session: a line that starts with `>` is a command, the lines below
it are what it is expected to output, and a line that starts with `#` is a
remark. Replaying a transcript runs its commands in a fresh session and lists
the commands whose output is another one, blank lines at the end aside.
-/

namespace JossLang

structure Exchange where
  line : Nat
  command : String
  expected : List String
deriving DecidableEq, Repr

/-- Reads further lines behind those read so far, which are kept last one first with their expected
lines last one first. A line that is not blank needs a command before it; else its number is the
error. -/
def readExchanges : (number : Nat) → List (List Char) → List Exchange → Except Nat (List Exchange)
  | _, [], read => .ok (read.reverse.map fun x => { x with expected := x.expected.reverse })
  | n, l :: ls, read =>
    match l, read with
    | '#' :: _, _ => readExchanges (n + 1) ls read
    | '>' :: command, _ => readExchanges (n + 1) ls (⟨n, String.ofList (trim command), []⟩ :: read)
    | _, x :: xs =>
      readExchanges (n + 1) ls ({ x with expected := String.ofList l :: x.expected } :: xs)
    | _, [] => if isBlankText l then readExchanges (n + 1) ls [] else .error n

def readTranscript (text : String) : Except Nat (List Exchange) := readExchanges 1 (linesOf text.toList) []

def transcriptFault (line : Nat) : String :=
  "line " ++ spellNat line ++ ": expected output before any '>' command"

/-! ## Replay -/

structure Mismatch where
  line : Nat
  command : String
  expected : List String
  actual : List String
deriving DecidableEq, Repr

def Mismatch.describe (m : Mismatch) : String :=
  "line " ++ spellNat m.line ++ ": > " ++ m.command ++ "\n  expected: " ++ quotedList m.expected ++
    "\n  actual:   " ++ quotedList m.actual

def trimLines (lines : List String) : List String :=
  (lines.reverse.dropWhile fun l => isBlankText l.toList).reverse

section
variable {ω : Type} (setup : Setup ω)

def exchange (command : String) (s : State ω) : Except Stray String × State ω :=
  match evaluateLine setup command s with
  | (none, s') => (.ok (s'.typedSince s), s')
  | (some (.stray x), s') => (.error x, s')
  | (some e, s') => (.ok (s'.typedSince s ++ ("Error: " ++ e.message ++ "\n")), s')

def Exchange.mismatch? (x : Exchange) (output : String) : Option Mismatch :=
  let actual := trimLines (programLines output)
  let expected := trimLines x.expected
  if actual = expected then none else some ⟨x.line, x.command, expected, actual⟩

/-- What replaying came to; what was stray, if anything, ended it. -/
structure Replay (ω : Type) where
  mismatches : List Mismatch
  stray : Option Stray
  world : ω
deriving DecidableEq

def replayFrom : List Exchange → State ω → Replay ω
  | [], s => ⟨[], none, s.world⟩
  | x :: xs, s =>
    match exchange setup x.command s with
    | (.error stray, s') => ⟨[], some stray, s'.world⟩
    | (.ok output, s') =>
      let r := replayFrom xs s'
      { r with mismatches := (x.mismatch? output).toList ++ r.mismatches }

def replay (text : String) (world : ω) : Except Nat (Replay ω) := do
  return replayFrom setup (← readTranscript text) (setup.start world)

end

end JossLang
