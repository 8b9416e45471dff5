/-!
# Lexemes

The words and signs of the language, each with the characters it is written
with. A caret counts as an operator, but none is defined for it.
-/

namespace JossLang

inductive Keyword where
  | type | set | define | perform | guard | each | times | step | part
deriving DecidableEq, Repr

namespace Keyword

def spelling : Keyword → String
  | type => "Type"
  | set => "Set"
  | define => "Let"
  | perform => "Do"
  | guard => "if"
  | each => "for"
  | times => "times"
  | step => "step"
  | part => "part"

def all : List Keyword := [type, set, define, perform, guard, each, times, step, part]

theorem mem_all (k : Keyword) : k ∈ all := by cases k <;> decide

end Keyword

inductive Operator where
  | or | and | eq | ne | lt | gt | le | ge | add | sub | div | mul
deriving DecidableEq, Repr

namespace Operator

def spelling : Operator → String
  | or => "or"
  | and => "and"
  | eq => "="
  | ne => "!="
  | lt => "<"
  | gt => ">"
  | le => "<="
  | ge => ">="
  | add => "+"
  | sub => "-"
  | div => "/"
  | mul => "*"

def precedence : Operator → Nat
  | or => 0
  | and => 1
  | eq | ne => 2
  | lt | gt | le | ge => 3
  | add | sub => 4
  | div | mul => 5

end Operator

inductive Bracket where
  | round | square
deriving DecidableEq, Repr

namespace Bracket

def opening : Bracket → String
  | round => "("
  | square => "["

def closing : Bracket → String
  | round => ")"
  | square => "]"

end Bracket

inductive Kind where
  | keyword | operator | name | number | text | opening | closing
  | comma | semicolon | colon | period | other | finish
deriving DecidableEq, Repr

def Kind.label : Kind → String
  | keyword => "ID"
  | operator => "OP"
  | name => "VAR"
  | number => "NUM"
  | text => "STR"
  | opening => "OPEN_BRACKET"
  | closing => "CLOSE_BRACKET"
  | comma => "COMMA"
  | semicolon => "SEMICOLON"
  | colon => "COLON"
  | period => "PERIOD"
  | other => "OTHER"
  | finish => "END"

/-- A unit of the language; `finish` stands behind the last one of a line. -/
inductive Lexeme where
  | keyword (k : Keyword)
  | operator (o : Operator)
  | caret
  | name (s : String)
  | number (s : String)
  | text (s : String)
  | opening (b : Bracket)
  | closing (b : Bracket)
  | comma
  | semicolon
  | colon
  | period
  | other (c : Char)
  | finish
deriving DecidableEq, Repr

namespace Lexeme

def kind : Lexeme → Kind
  | keyword _ => .keyword
  | operator _ => .operator
  | caret => .operator
  | name _ => .name
  | number _ => .number
  | text _ => .text
  | opening _ => .opening
  | closing _ => .closing
  | comma => .comma
  | semicolon => .semicolon
  | colon => .colon
  | period => .period
  | other _ => .other
  | finish => .finish

def spelling : Lexeme → String
  | keyword k => k.spelling
  | operator o => o.spelling
  | caret => "^"
  | name s => s
  | number s => s
  | text s => "\"" ++ s ++ "\""
  | opening b => b.opening
  | closing b => b.closing
  | comma => ","
  | semicolon => ";"
  | colon => ":"
  | period => "."
  | other c => String.singleton c
  | finish => ""

def chars (l : Lexeme) : List Char := l.spelling.toList

end Lexeme

end JossLang
