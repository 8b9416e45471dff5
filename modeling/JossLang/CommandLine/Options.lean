import JossLang.Text.Digit

/-!
# Options

How the words of a command line are read. An option may be shortened to a
beginning that no other option has, and a value can follow it behind an equals
sign or as the next word. Where an option with one hyphen takes no value, what
follows in the same word are further options of one letter. Words that are no
options are the program, of which there is at most one; behind two hyphens no
word is an option.
-/

namespace JossLang

structure Options where
  program : Option String := none
  literal : Bool := false
  verbose : Bool := false
  report : Bool := false
  sparse : Bool := false
  listing : Bool := false
  extensions : List String := []
  transcript : Option String := none
deriving DecidableEq, Repr

inductive Exit where
  | help
  | usage
deriving DecidableEq, Repr

def Exit.status : Exit → Nat
  | help => 0
  | usage => 2

inductive Flag where
  | help | literal | verbose | report | sparse | extension | transcript | listing
deriving DecidableEq, Repr

namespace Flag

def takesValue : Flag → Bool
  | extension | transcript => true
  | _ => false

def spellings : List (String × Flag) := [
  ("-h", help), ("--help", help), ("-source", literal), ("--source", literal), ("-verbose", verbose),
  ("--verbose", verbose), ("--traceback-json", report), ("--sparse-arrays", sparse),
  ("--ext", extension), ("--session", transcript), ("--list-functions", listing)]

def ofSpelling? (cs : List Char) : Option Flag :=
  (spellings.find? fun s => s.1.toList == cs).map (·.2)

def apply (o : Options) : Flag → Except Exit Options
  | help => .error .help
  | literal => .ok { o with literal := true }
  | verbose => .ok { o with verbose := true }
  | report => .ok { o with report := true }
  | sparse => .ok { o with sparse := true }
  | listing => .ok { o with listing := true }
  | extension | transcript => .error .usage

def applyTo (o : Options) (value : String) : Flag → Options
  | extension => { o with extensions := o.extensions ++ [value] }
  | transcript => { o with transcript := some value }
  | _ => o

def letters? : List Char → Option (List Flag)
  | [] => some []
  | c :: cs => do return (← ofSpelling? ['-', c]) :: (← letters? cs)

/-- What an option does with characters that follow it in its word. Two hyphens are no value. -/
def applyBehind (o : Options) (hyphens : Nat) (behind : List Char) (f : Flag) : Except Exit Options :=
  if f.takesValue then .ok (f.applyTo o (if behind = ['-', '-'] then "" else String.ofList behind))
  else match hyphens, behind, letters? behind with
    | 1, _ :: _, some flags => (f :: flags).foldlM apply o
    | _, _, _ => .error .usage

end Flag

/-! ## Words -/

inductive Word where
  | plain (text : String)
  | option (flag : Flag) (hyphens : Nat) (behind : Option (List Char))
  | unknown
  | separator

def withoutNewline (cs : List Char) : List Char := if cs.getLast? = some '\n' then cs.dropLast else cs

def isNegativeNumber : List Char → Bool
  | '-' :: cs =>
    let body := withoutNewline cs
    let whole := body.takeWhile isDigit
    match body.dropWhile isDigit with
    | [] => !whole.isEmpty
    | '.' :: ds => !ds.isEmpty && ds.all isDigit
    | _ => false
  | _ => false

def hyphensOf (cs : List Char) : Nat := (cs.take 2).count '-'

def splitEquals (cs : List Char) : List Char × Option (List Char) :=
  match cs.dropWhile (· ≠ '=') with
  | [] => (cs, none)
  | _ :: value => (cs.takeWhile (· ≠ '='), some value)

/-- The options that a word can stand for. With one hyphen the word as a whole is a beginning, or it
is an option of one letter with characters behind it. -/
def candidates (cs : List Char) : List Word :=
  if hyphensOf cs = 2 then
    let (start, value) := splitEquals cs
    Flag.spellings.filterMap fun (s, f) =>
      if start.isPrefixOf s.toList then some (.option f 2 value) else none
  else
    Flag.spellings.filterMap fun (s, f) =>
      if s.toList = cs.take 2 then some (.option f 1 (some (cs.drop 2)))
      else if cs.isPrefixOf s.toList then some (.option f 1 none)
      else none

def exactOption? (cs : List Char) : Option Word :=
  match Flag.ofSpelling? cs with
  | some f => some (.option f (hyphensOf cs) none)
  | none =>
    match splitEquals cs with
    | (start, some value) => (Flag.ofSpelling? start).map fun f => .option f (hyphensOf start) (some value)
    | _ => none

def Word.ofText (text : String) : Except Exit Word :=
  let cs := text.toList
  if cs.head? ≠ some '-' ∨ cs = ['-'] then .ok (.plain text)
  else match exactOption? cs with
    | some w => .ok w
    | none =>
      match candidates cs with
      | [w] => .ok w
      | _ :: _ :: _ => .error .usage
      | [] => .ok (if isNegativeNumber cs || cs.contains ' ' then .plain text else .unknown)

def readWords : List String → Except Exit (List Word)
  | [] => .ok []
  | t :: ts =>
    if t = "--" then .ok (.separator :: ts.map .plain)
    else do
      let w ← Word.ofText t
      return w :: (← readWords ts)

/-! ## Reading -/

def finishOptions (o : Options) (spare : Bool) : Except Exit Options :=
  if spare then .error .usage else .ok o

/-- Goes through the words. `spare` tells that some word had no use, which is said in the end. -/
def readFrom (o : Options) (spare : Bool) : List Word → Except Exit Options
  | [] => finishOptions o spare
  | [.plain text, .separator] =>
    if o.program.isSome then .error .usage else finishOptions { o with program := some text } spare
  | .plain text :: ws =>
    if o.program.isSome then readFrom o true ws else readFrom { o with program := some text } spare ws
  | .unknown :: ws => readFrom o true ws
  | .separator :: ws =>
    match ws, o.program with
    | [], none => finishOptions o spare
    | [.plain text], none => finishOptions { o with program := some text } spare
    | _, _ => .error .usage
  | .option f hyphens (some cs) :: ws => do readFrom (← f.applyBehind o hyphens cs) spare ws
  | .option f _ none :: .plain v :: ws =>
    if f.takesValue then readFrom (f.applyTo o v) spare ws
    else do readFrom (← f.apply o) spare (.plain v :: ws)
  | .option f _ none :: ws =>
    if f.takesValue then .error .usage else do readFrom (← f.apply o) spare ws

def Options.read (args : List String) : Except Exit Options := do readFrom {} false (← readWords args)

end JossLang
