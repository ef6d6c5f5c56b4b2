import Constructions.Assoc

/-!
# Directory trees

* `Path` -- a place in a tree, as the names from the root down.
* `Path.resolve` -- the place that a text names, seen from a directory, by its names alone.
* `Tree` -- directories and files; `Tree.write`, `Tree.delete` change it.
* `Tree.lookup` -- the bytes of the file that a text names, every directory on the way being there.
-/

namespace Constructions

/-! ## 1. Paths -/

/-- The names from the root down to a place. -/
abbrev Path := List String

namespace Path

/-- The names of a text, as it is cut at its slashes. -/
def names (text : String) : List String := (text.toList.splitOn '/').map String.ofList

/-- Where the names of a text are followed from: the root if it begins with a slash, else `p`. -/
def origin (p : Path) (text : String) : Path := if text.toList.head? = some '/' then [] else p

/-- One name further: nothing and `.` stay, `..` goes up; above the root there is only the root. -/
def enter (p : Path) (name : String) : Path :=
  if name = "" ∨ name = "." then p else if name = ".." then p.dropLast else p ++ [name]

/-- The place that a text names from `p`, whether it exists or not. -/
def resolve (p : Path) (text : String) : Path := (names text).foldl enter (p.origin text)

/-- The place itself, the directory around it, and so on up to the root. -/
def upward (p : Path) : List Path := (List.range (p.length + 1)).reverse.map p.take

/-- The text of a place below the root. -/
def render (p : Path) : String := "/".intercalate p

end Path

/-! ## 2. Trees -/

/-- The directories below the root and the files with their bytes.  A file without bytes cannot be
    opened; it is a file all the same. -/
structure Tree where
  dirs : List Path
  files : List (Path × Option (List UInt8))
deriving Inhabited

namespace Tree

/-- A root with nothing in it. -/
def empty : Tree := ⟨[], []⟩

/-- Whether there is a directory at `p`. -/
def isDir (t : Tree) (p : Path) : Bool := p.isEmpty || t.dirs.contains p

/-- Whether there is a file at `p`. -/
def isFile (t : Tree) (p : Path) : Bool := (t.files.lookup p).isSome

/-- The bytes of the file at `p`, if there is one that can be opened. -/
def bytes? (t : Tree) (p : Path) : Option (List UInt8) := (t.files.lookup p).join

/-- With a directory at `p` and all directories above it. -/
def addDir (t : Tree) (p : Path) : Tree := { t with dirs := p.upward ++ t.dirs }

/-- With a file at `p`, in place of one that was there, and all directories above it. -/
def write (t : Tree) (p : Path) (bytes : List UInt8) : Tree :=
  { t.addDir p.dropLast with files := Assoc.put p (some bytes) t.files }

/-- Without the file at `p`. -/
def delete (t : Tree) (p : Path) : Tree := { t with files := Assoc.erase p t.files }

/-- The bytes of the file that names lead to from the directory at `p`: every name but the last one
    must lead to a directory, and the last one to a file that can be opened. -/
def walk (t : Tree) (p : Path) : List String → Option (List UInt8)
  | [] => none
  | [name] => if name = "" ∨ name = "." ∨ name = ".." then none else t.bytes? (p ++ [name])
  | name :: rest => if t.isDir (p.enter name) then t.walk (p.enter name) rest else none

/-- The bytes of the file that a text names from the directory at `p`. -/
def lookup (t : Tree) (p : Path) (text : String) : Option (List UInt8) :=
  if t.isDir (p.origin text) then t.walk (p.origin text) (Path.names text) else none

end Tree

end Constructions
