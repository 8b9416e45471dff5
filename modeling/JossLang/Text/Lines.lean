/-!
# Lines

Two ways to cut a text into lines. A program is cut at newlines alone, and
every newline has a line after it. A transcript is cut at every line break of
Unicode, and a break at the very end starts no further line.
-/

namespace JossLang

def consLine (c : Char) : List (List Char) → List (List Char)
  | [] => [[c]]
  | l :: ls => (c :: l) :: ls

def splitNewlines : List Char → List (List Char)
  | [] => [[]]
  | c :: cs => if c = '\n' then [] :: splitNewlines cs else consLine c (splitNewlines cs)

theorem splitNewlines_ne_nil (cs : List Char) : splitNewlines cs ≠ [] := by
  cases cs with
  | nil => simp [splitNewlines]
  | cons c cs =>
    unfold splitNewlines
    split
    · simp
    · cases splitNewlines cs <;> simp [consLine]

/-- Line feed, carriage return, vertical tab, form feed, the separators U+001C to U+001E, next
line, line separator and paragraph separator. -/
def isLineBreak (c : Char) : Bool :=
  [10, 11, 12, 13, 28, 29, 30, 133, 8232, 8233].contains c.toNat

/-- The lines of a text, a carriage return before a line feed being one break with it. -/
def linesOf : List Char → List (List Char)
  | [] => []
  | '\r' :: '\n' :: cs => [] :: linesOf cs
  | c :: cs => if isLineBreak c then [] :: linesOf cs else consLine c (linesOf cs)

/-- Every line break of a stored text becomes a newline: a lone carriage return, and one with the
line feed after it. -/
def unifyNewlines : List Char → List Char
  | [] => []
  | '\r' :: '\n' :: cs => '\n' :: unifyNewlines cs
  | c :: cs => (if c = '\r' then '\n' else c) :: unifyNewlines cs

end JossLang
