import JossLang.Text.Lines
import JossLang.Text.Quoted

/-!
# Folders

Text files by their absolute paths, as far as a run of the program asks for
them, and what reading one says when it fails.
-/

namespace JossLang

/-! ## Paths -/

namespace Path

def pieces : List Char → List (List Char)
  | [] => [[]]
  | c :: cs => if c = '/' then [] :: pieces cs else consLine c (pieces cs)

def step (place : List (List Char)) (piece : List Char) : List (List Char) :=
  if piece = [] ∨ piece = ['.'] then place
  else if piece = ['.', '.'] then place.tail
  else piece :: place

def places : (pieces place : List (List Char)) → List (List (List Char))
  | [], place => [place]
  | piece :: pieces, place => place :: places pieces (step place piece)

def spelled (root : String) (place : List (List Char)) : String :=
  root ++ "/".intercalate (place.reverse.map String.ofList)

/-- The slashes that a path starts with: one, or two if they are exactly two. -/
def root : List Char → String
  | '/' :: '/' :: '/' :: _ => "/"
  | '/' :: '/' :: _ => "//"
  | '/' :: _ => "/"
  | _ => ""

def joined (working path : String) : List Char :=
  if path.toList.head? = some '/' then path.toList else working.toList ++ '/' :: path.toList

def absolute (working path : String) : String :=
  let full := joined working path
  spelled (root full) ((pieces full).foldl step [])

def name (path : String) : String := String.ofList ((pieces path.toList).getLast?.getD [])

/-- The name without what is behind its last point; points at the start do not count. -/
def stem (path : String) : String :=
  let body := (name path).toList.dropWhile (· = '.')
  let dots := (name path).toList.takeWhile (· = '.')
  let kept := if body.contains '.' then (body.reverse.dropWhile (· ≠ '.')).reverse.dropLast else body
  String.ofList (dots ++ kept)

def isSource (path : String) : Bool := ".py".toList.isSuffixOf path.toList

end Path

/-! ## Files -/

inductive FileFault where
  | notFound
  | notAFolder
  | isAFolder
  | nameTooLong
  | nullCharacter
deriving DecidableEq, Repr

def FileFault.message (path : String) : FileFault → String
  | notFound => "[Errno 2] No such file or directory: " ++ quoted path
  | notAFolder => "[Errno 20] Not a directory: " ++ quoted path
  | isAFolder => "[Errno 21] Is a directory: " ++ quoted path
  | nameTooLong => "[Errno 36] File name too long: " ++ quoted path
  | nullCharacter => "embedded null byte"

def longestPath : Nat := 4095

def longestPiece : Nat := 255

structure Folder where
  working : String
  files : List (String × String)
  folders : List String := []

namespace Folder

def hasFile (f : Folder) (full : String) : Bool := f.files.any (·.1 == full)

/-- A path is a folder if it is known to be one, or if a known file or folder is below it. What is
above the first piece of all is one, too. -/
def isFolder (f : Folder) (full : String) : Bool :=
  full == "" || full == "/" || (f.working :: f.folders ++ f.files.map (·.1)).any fun known =>
    (full ++ "/").toList.isPrefixOf (known ++ "/").toList

def follow (f : Folder) (root : String) :
    (pieces place : List (List Char)) → Except FileFault String
  | [], place => .ok (Path.spelled root place)
  | piece :: pieces, place =>
    let here := Path.spelled root place
    if f.hasFile here then .error .notAFolder
    else if !f.isFolder here then .error .notFound
    else if longestPiece < (String.ofList piece).utf8ByteSize then .error .nameTooLong
    else follow f root pieces (Path.step place piece)

def read (f : Folder) (path : String) : Except FileFault String := do
  if path.toList.contains '\x00' then throw .nullCharacter
  if path.isEmpty then throw .notFound
  if longestPath < path.utf8ByteSize then throw .nameTooLong
  let joined := Path.joined f.working path
  let full ← f.follow (if joined.head? = some '/' then "/" else "") (Path.pieces joined) []
  match f.files.lookup full with
  | some text => return String.ofList (unifyNewlines text.toList)
  | none => throw (if f.isFolder full then .isAFolder else .notFound)

end Folder

end JossLang
