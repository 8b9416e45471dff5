import JossLang.Text.CharClass

/-!
# Blanks

White space of Unicode, together with the four separators U+001C to U+001F.
Blanks separate tokens and are trimmed from both ends of a statement.
-/

namespace JossLang

def blankRanges : List (Nat × Nat) := [
  (9, 13), (28, 32), (133, 133), (160, 160), (5760, 5760), (8192, 8202), (8232, 8233),
  (8239, 8239), (8287, 8287), (12288, 12288)]

def isBlank (c : Char) : Bool := inRanges blankRanges c

def trimStart (cs : List Char) : List Char := cs.dropWhile isBlank

def trimEnd (cs : List Char) : List Char := (cs.reverse.dropWhile isBlank).reverse

def trim (cs : List Char) : List Char := trimEnd (trimStart cs)

def trimmed (s : String) : String := String.ofList (trim s.toList)

def isBlankText (cs : List Char) : Bool := cs.all isBlank

end JossLang
