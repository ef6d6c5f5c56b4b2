import Constructions.Text.Utf8
import Constructions.Yaml.Cursor.Block

/-!
# Names, tags and directives

* `Yaml.Cursor.readName` -- the name of an anchor.
* `Yaml.Cursor.readTag` -- a tag: written out, alone, or with the handle that it begins with.
* `Yaml.Cursor.readDirective` -- a line in front of a document.
-/

namespace Constructions.Yaml.Cursor

/-! ## 1. Anchors -/

/-- The characters at the front that satisfy `p`, and what follows them. -/
def takeWhile (s : Cursor) (p : Char → Bool) : String × Cursor :=
  let front := s.rest.takeWhile p
  (String.ofList front, s.skip front.length)

/-- A name, at least one character long. -/
def readWord (s : Cursor) : Except Fault (String × Cursor) :=
  let (name, s) := s.takeWhile isNameChar
  if name = "" then .error .malformed else .ok (name, s)

/-- A mark and the name of an anchor after it. -/
def readName (s : Cursor) : Except Fault (String × Cursor) := do
  let (name, s) ← s.step.readWord
  if endsWord s.peek || s.peek.any "?:,]\x7d%@`".toList.contains then return (name, s)
  else throw .malformed

/-! ## 2. Tags -/

/-- A character of a tag; the percent sign begins the code of another one. -/
def isTagChar (c : Char) : Bool :=
  c.isAlphanum || "-;/?:@&=+$,_.!~*'()[]%".toList.contains c

/-- The bytes that are given in hexadecimal, each after a percent sign. -/
def codedBytes : List Char → Except Fault (List UInt8 × List Char)
  | '%' :: a :: b :: rest =>
    match Text.hexDigit? a, Text.hexDigit? b with
    | some m, some n => do
      let (bytes, rest) ← codedBytes rest
      return ((m * 16 + n).toUInt8 :: bytes, rest)
    | _, _ => .error .malformed
  | '%' :: _ => .error .malformed
  | rest => .ok ([], rest)

/-- A tag's characters, those that are given by codes among them. -/
def decodeTag : Nat → List Char → Except Fault (List Char)
  | 0, _ => .error .malformed
  | _, [] => .ok []
  | fuel + 1, c :: rest =>
    if c = '%' then do
      let (bytes, rest) ← codedBytes (c :: rest)
      match Text.decodeUtf8 bytes with
      | .ok front => return front ++ (← decodeTag fuel rest)
      | .error _ => throw .malformed
    else do return c :: (← decodeTag fuel rest)

/-- The name in a tag, at least one character long. -/
def readTagName (s : Cursor) : Except Fault (String × Cursor) := do
  let (name, s) := s.takeWhile isTagChar
  if name = "" then throw .malformed
  return (String.ofList (← decodeTag (name.length + 1) name.toList), s)

/-- A tag's handle: a name between two marks, or a single mark before a space. -/
def readHandle (s : Cursor) : Except Fault (String × Cursor) :=
  if !s.sees '!' then .error .malformed
  else if s.peekAt 1 = some ' ' then .ok ("!", s.step)
  else
    let (name, s) := s.step.takeWhile isNameChar
    if s.sees '!' then .ok ("!" ++ name ++ "!", s.step) else .error .malformed

/-- A tag. -/
def readTag (s : Cursor) : Except Fault (Token × Cursor) := do
  let next := s.peekAt 1
  let (t, s) ←
    if next = some '<' then do
      let (name, s) ← (s.skip 2).readTagName
      if s.sees '>' then pure (Token.tag none name, s.step) else throw .malformed
    else if endsWord next then pure (Token.tag none "!", s.step)
    else do
      let word := s.step.rest.takeWhile fun c => !endsField (some c)
      let (handle, s) ← if word.contains '!' then s.readHandle else pure ("!", s.step)
      let (name, s) ← s.readTagName
      pure (Token.tag (some handle) name, s)
  if endsField s.peek then return (t, s) else throw .malformed

/-! ## 3. Directives -/

/-- A number in decimal digits. -/
def readNumber (s : Cursor) : Except Fault (Nat × Cursor) :=
  match s.rest.takeWhile Char.isDigit with
  | [] => .error .malformed
  | digits =>
    .ok (Text.ofDigits 10 (digits.filterMap Text.asciiDigit?), s.skip digits.length)

/-- The version in a directive, two numbers with a point between them. -/
def readVersion (s : Cursor) : Except Fault (Directive × Cursor) := do
  let (major, s) ← (s.skipWhile (· = ' ')).readNumber
  if !s.sees '.' then throw .malformed
  let (_, s) ← s.step.readNumber
  if endsField s.peek then return (.version major, s) else throw .malformed

/-- The handle in a directive, and what it stands for. -/
def readHandleLine (s : Cursor) : Except Fault (Directive × Cursor) := do
  let (name, s) ← (s.skipWhile (· = ' ')).readHandle
  if !s.sees ' ' then throw .malformed
  let (expansion, s) ← (s.skipWhile (· = ' ')).readTagName
  if endsField s.peek then return (.handle name expansion, s) else throw .malformed

/-- A directive, up to the end of its line. -/
def readDirective (s : Cursor) : Except Fault (Directive × Cursor) := do
  let (name, s) ← s.step.readWord
  if !endsField s.peek then throw .malformed
  let (d, s) ← match name with
    | "YAML" => s.readVersion
    | "TAG" => s.readHandleLine
    | _ => pure (.other, s.skipWhile (!isBreak ·))
  return (d, ← s.restOfLine)

end Constructions.Yaml.Cursor
