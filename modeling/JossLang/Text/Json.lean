import JossLang.Text.Digit
import JossLang.Text.Quoted

/-!
# JSON documents

Documents in writing, with an indentation of two blanks. Only printable ASCII
characters stand for themselves; others are written by their UTF-16 units.
-/

namespace JossLang

inductive Json where
  | null
  | number (n : Nat)
  | text (s : String)
  | list (items : List Json)
  | object (fields : List (String × Json))

namespace Json

def unitEscape (u : Nat) : List Char := '\\' :: 'u' :: hexDigits 4 u

/-- A character by its UTF-16 units, two of them beyond U+FFFF. -/
def codeEscape (n : Nat) : List Char :=
  if n < 65536 then unitEscape n
  else unitEscape (55296 + (n - 65536) / 1024) ++ unitEscape (56320 + (n - 65536) % 1024)

def escape (c : Char) : List Char :=
  if c = '"' then ['\\', '"']
  else if c = '\\' then ['\\', '\\']
  else if c = '\n' then ['\\', 'n']
  else if c = '\r' then ['\\', 'r']
  else if c = '\t' then ['\\', 't']
  else if c.toNat = 8 then ['\\', 'b']
  else if c.toNat = 12 then ['\\', 'f']
  else if 32 ≤ c.toNat ∧ c.toNat < 127 then [c]
  else codeEscape c.toNat

def quote (s : String) : String := "\"" ++ String.ofList (s.toList.flatMap escape) ++ "\""

def newline (depth : Nat) : String := "\n" ++ String.ofList (List.replicate (2 * depth) ' ')

mutual

def render (depth : Nat) : Json → String
  | null => "null"
  | number n => spellNat n
  | text s => quote s
  | list [] => "[]"
  | list (i :: is) => "[" ++ renderItems (depth + 1) (i :: is) ++ newline depth ++ "]"
  | object [] => "\x7b\x7d"
  | object (f :: fs) => "\x7b" ++ renderFields (depth + 1) (f :: fs) ++ newline depth ++ "\x7d"

def renderItems (depth : Nat) : List Json → String
  | [] => ""
  | [i] => newline depth ++ render depth i
  | i :: is => newline depth ++ render depth i ++ "," ++ renderItems depth is

def renderFields (depth : Nat) : List (String × Json) → String
  | [] => ""
  | [(k, v)] => newline depth ++ quote k ++ ": " ++ render depth v
  | (k, v) :: fs => newline depth ++ quote k ++ ": " ++ render depth v ++ "," ++ renderFields depth fs

end

def ofOption : Option String → Json
  | none => null
  | some s => text s

end Json

end JossLang
