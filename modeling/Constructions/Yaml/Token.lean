import Constructions.Yaml.Fault

/-!
# Tokens of YAML documents

A document is a list of tokens.  In block style the tokens carry the structure that the indentation
gives: a collection is opened at its first entry and closed where the text moves out again.

* `Yaml.Directive` -- what may stand in front of a document.
* `Yaml.Token` -- the tokens.  The last one of a list says how the text ended.
* `Yaml.isBreak`, `endsWord`, `isIndicator` -- the characters that tokens are told apart by.
-/

namespace Constructions.Yaml

/-! ## 1. Tokens -/

/-- A line in front of a document. -/
inductive Directive
  /-- The version of the language that it is written in. -/
  | version (major : Nat)
  /-- What a tag's handle stands for. -/
  | handle (name expansion : String)
  /-- A line that says nothing here. -/
  | other
deriving DecidableEq, Repr

/-- The parts of a document. -/
inductive Token
  | directive (d : Directive)
  | documentStart
  | documentEnd
  | blockSequence
  | blockMapping
  | blockEnd
  | flowSequence
  | flowSequenceEnd
  | flowMapping
  | flowMappingEnd
  | entry
  | comma
  | key
  | value
  /-- The node with this anchor. -/
  | reference (name : String)
  /-- The anchor of the node that follows. -/
  | anchor (name : String)
  /-- The tag of the node that follows; without a handle the tag is written out. -/
  | tag (handle : Option String) (suffix : String)
  | scalar (text : String) (plain : Bool)
  /-- The end of the text. -/
  | finish
  /-- The text cannot be read any further. -/
  | broken (x : BadScalar)
deriving DecidableEq, Repr

/-! ## 2. Characters -/

/-- A character that ends a line. -/
def isBreak (c : Char) : Bool :=
  c = '\n' || c.toNat = 0x85 || c.toNat = 0x2028 || c.toNat = 0x2029

/-- The mark that may stand in front of a text. -/
def byteOrderMark : Char := Char.ofNat 0xFEFF

/-- The end of a line or of the text. -/
def endsLine (c : Option Char) : Bool := c.all isBreak

/-- A space, the end of a line or the end of the text. -/
def endsField (c : Option Char) : Bool := c = some ' ' || endsLine c

/-- A blank, the end of a line or the end of the text. -/
def endsWord (c : Option Char) : Bool := c = some '\t' || endsField c

/-- A character that may stand in a document at all. -/
def isAdmissible (c : Char) : Bool :=
  let n := c.toNat
  n == 0x09 || n == 0x0A || n == 0x0D || (0x20 ≤ n && n ≤ 0x7E) || n == 0x85
    || (0xA0 ≤ n && n ≤ 0xFFFD) || 0x10000 ≤ n

/-- One of the brackets and the comma, which separate items inside brackets. -/
def isFlowMark (c : Char) : Bool := ",[]\x7b\x7d".toList.contains c

/-- A character that can begin a token of its own, so that no plain text begins with it. -/
def isIndicator (c : Char) : Bool := "-?:,[]\x7b\x7d#&*!|>'\"%@`".toList.contains c

/-- A character of the names of anchors, handles and directives. -/
def isNameChar (c : Char) : Bool := c.isAlphanum || c = '-' || c = '_'

end Constructions.Yaml
