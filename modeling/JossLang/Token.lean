import JossLang.Lexeme
import JossLang.Text.Blank
import JossLang.Text.Digit
import JossLang.Text.WordChar

/-!
# Tokens of a line

A line is cut from left to right into lexemes, with blanks between them; a
token is a lexeme with the column it starts at. Blank lines and lines that
start or end with an asterisk are comments and have no tokens.

Main statement: `chars_append_scan`, nothing is lost at a cut.
-/

namespace JossLang

/-- A line that is blank, or starts or ends with an asterisk. -/
def isComment (line : List Char) : Bool :=
  let body := trim line
  body.isEmpty || body.head? == some '*' || body.getLast? == some '*'

/-! ## Cutting off one piece -/

inductive Piece where
  | blanks (cs : List Char)
  | lexeme (l : Lexeme)

def Piece.chars : Piece → List Char
  | blanks cs => cs
  | lexeme l => l.chars

def wordLexeme (cs : List Char) : Lexeme :=
  match Keyword.all.find? (·.spelling.toList == cs) with
  | some k => .keyword k
  | none =>
    if cs = ['o', 'r'] then .operator .or
    else if cs = ['a', 'n', 'd'] then .operator .and
    else .name (String.ofList cs)

def lastQuote? : List Char → Option (List Char × List Char)
  | [] => none
  | c :: cs =>
    if c = '\n' then none
    else match lastQuote? cs with
      | some (inside, rest) => some (c :: inside, rest)
      | none => if c = '"' then some ([], cs) else none

def fractionOf : List Char → List Char × List Char
  | '.' :: d :: cs =>
    if isDigit d then ('.' :: d :: cs.takeWhile isDigit, cs.dropWhile isDigit) else ([], '.' :: d :: cs)
  | cs => ([], cs)

def compareSign? : Char → Option Operator
  | '<' => some .le
  | '>' => some .ge
  | '!' => some .ne
  | _ => none

def signLexeme : Char → Lexeme
  | '-' => .operator .sub
  | '+' => .operator .add
  | '*' => .operator .mul
  | '/' => .operator .div
  | '^' => .caret
  | '=' => .operator .eq
  | '<' => .operator .lt
  | '>' => .operator .gt
  | '(' => .opening .round
  | '[' => .opening .square
  | ')' => .closing .round
  | ']' => .closing .square
  | ',' => .comma
  | ';' => .semicolon
  | ':' => .colon
  | '.' => .period
  | c => .other c

def scanSign (c : Char) (cs : List Char) : Piece × List Char :=
  match compareSign? c, cs with
  | some o, '=' :: rest => (.lexeme (.operator o), rest)
  | _, _ => (.lexeme (signLexeme c), cs)

def scan (c : Char) (cs : List Char) : Piece × List Char :=
  if isBlank c then (.blanks (c :: cs.takeWhile isBlank), cs.dropWhile isBlank)
  else if isNameStart c then (.lexeme (wordLexeme (c :: cs.takeWhile isWordChar)), cs.dropWhile isWordChar)
  else if isDigit c then
    (.lexeme (.number (String.ofList
        (c :: cs.takeWhile isDigit ++ (fractionOf (cs.dropWhile isDigit)).1))),
      (fractionOf (cs.dropWhile isDigit)).2)
  else if c = '.' then
    if (fractionOf (c :: cs)).1 = [] then (.lexeme .period, cs)
    else (.lexeme (.number (String.ofList (fractionOf (c :: cs)).1)), (fractionOf (c :: cs)).2)
  else if c = '"' then
    match lastQuote? cs with
    | some (inside, rest) => (.lexeme (.text (String.ofList inside)), rest)
    | none => (.lexeme (.other c), cs)
  else scanSign c cs

/-! ## Nothing is lost -/

theorem chars_wordLexeme (cs : List Char) : (wordLexeme cs).chars = cs := by
  unfold wordLexeme
  split
  · next k h => simpa [Lexeme.chars, Lexeme.spelling] using List.find?_some h
  · split
    · next h => subst h; decide
    · split
      · next h => subst h; decide
      · simp [Lexeme.chars, Lexeme.spelling]

theorem fractionOf_append (cs : List Char) : (fractionOf cs).1 ++ (fractionOf cs).2 = cs := by
  unfold fractionOf
  split
  · split <;> simp [List.takeWhile_append_dropWhile]
  · simp

theorem lastQuote?_append {cs inside rest : List Char} (h : lastQuote? cs = some (inside, rest)) :
    inside ++ '"' :: rest = cs := by
  induction cs generalizing inside rest with
  | nil => simp [lastQuote?] at h
  | cons c cs ih =>
    unfold lastQuote? at h
    split at h
    · cases h
    · split at h
      · next i r hi => cases h; simp [ih hi]
      · split at h
        · next hc => cases h; simp [hc]
        · cases h

theorem chars_signLexeme (c : Char) : (signLexeme c).chars = [c] := by
  unfold signLexeme
  split <;> first | rfl | simp [Lexeme.chars, Lexeme.spelling]

theorem chars_compareSign {c : Char} {o : Operator} (h : compareSign? c = some o) :
    (Lexeme.operator o).chars = [c, '='] := by
  unfold compareSign? at h
  split at h <;> cases h <;> rfl

theorem chars_append_scanSign (c : Char) (cs : List Char) :
    (scanSign c cs).1.chars ++ (scanSign c cs).2 = c :: cs := by
  unfold scanSign
  split
  · next h => simp [Piece.chars, chars_compareSign h]
  · simp [Piece.chars, chars_signLexeme]

theorem chars_append_scan (c : Char) (cs : List Char) :
    (scan c cs).1.chars ++ (scan c cs).2 = c :: cs := by
  unfold scan
  split
  · simp [Piece.chars]
  · split
    · simp [Piece.chars, chars_wordLexeme]
    · split
      · have := fractionOf_append (cs.dropWhile isDigit)
        simp [Piece.chars, Lexeme.chars, Lexeme.spelling, this]
      · split
        · next h =>
          subst h
          have := fractionOf_append ('.' :: cs)
          split
          · simp [Piece.chars, Lexeme.chars, Lexeme.spelling]
          · simpa [Piece.chars, Lexeme.chars, Lexeme.spelling] using this
        · split
          · next h =>
            subst h
            split
            · next hq => simp [Piece.chars, Lexeme.chars, Lexeme.spelling, lastQuote?_append hq]
            · simp [Piece.chars, Lexeme.chars, Lexeme.spelling]
          · exact chars_append_scanSign c cs

theorem chars_scanSign_ne_nil (c : Char) (cs : List Char) : (scanSign c cs).1.chars ≠ [] := by
  unfold scanSign
  split
  · next h => simp [Piece.chars, chars_compareSign h]
  · simp [Piece.chars, chars_signLexeme]

theorem chars_scan_ne_nil (c : Char) (cs : List Char) : (scan c cs).1.chars ≠ [] := by
  unfold scan
  split
  · simp [Piece.chars]
  · split
    · simp [Piece.chars, chars_wordLexeme]
    · split
      · simp [Piece.chars, Lexeme.chars, Lexeme.spelling]
      · split
        · split
          · simp [Piece.chars, Lexeme.chars, Lexeme.spelling]
          · next hf => simpa [Piece.chars, Lexeme.chars, Lexeme.spelling] using hf
        · split
          · split <;> simp [Piece.chars, Lexeme.chars, Lexeme.spelling]
          · exact chars_scanSign_ne_nil c cs

theorem length_scan_lt (c : Char) (cs : List Char) : (scan c cs).2.length < (c :: cs).length := by
  have h := congrArg List.length (chars_append_scan c cs)
  have h' := List.length_pos_iff.mpr (chars_scan_ne_nil c cs)
  rw [List.length_append] at h
  omega

/-! ## Tokens -/

structure Token where
  lexeme : Lexeme
  column : Nat
deriving DecidableEq, Repr

def tokensFrom (column : Nat) : List Char → List Token
  | [] => []
  | c :: cs =>
    let next := column + (scan c cs).1.chars.length
    match (scan c cs).1 with
    | .blanks _ => tokensFrom next (scan c cs).2
    | .lexeme l => ⟨l, column⟩ :: tokensFrom next (scan c cs).2
termination_by cs => cs.length
decreasing_by all_goals exact length_scan_lt c cs

def tokensOf (line : List Char) : List Token :=
  if isComment line then [] else tokensFrom 1 line

/-! ## Streams -/

/-- The tokens of a line from a position on. Behind the last one `finish` is found again and
again. -/
structure Stream where
  rest : List Token
  finish : Token
  taken : Nat := 0
deriving DecidableEq, Repr

namespace Stream

def ofLine (line : List Char) : Stream :=
  { rest := tokensOf line, finish := ⟨.finish, line.length + 1⟩ }

def peek (s : Stream) : Token := s.rest.headD s.finish

def next (s : Stream) : Token × Stream :=
  (s.peek, { s with rest := s.rest.tail, taken := s.taken + 1 })

end Stream

end JossLang
