import Constructions.Text.Digit
import Constructions.Yaml.Cursor

/-!
# Block scalars

A text on lines of its own, after a mark at the end of the line before.

* `Yaml.Cursor.restOfLine` -- the end of a line on which nothing more may stand.
* `Yaml.BlockStyle` -- what the marks ask for: line ends kept or folded, the last of them kept or
  not, the indentation found or given.
* `Yaml.Cursor.blockText` -- the text.

The readers take a bound on their steps, which the length of the text always meets.
-/

namespace Constructions.Yaml

/-- What becomes of the line ends after the last line of text. -/
inductive Chomping
  /-- The first of them counts. -/
  | clip
  /-- None counts. -/
  | strip
  /-- All count. -/
  | keep
deriving DecidableEq, Repr

/-- How a block scalar is written. -/
structure BlockStyle where
  /-- Whether a single line end between two lines of text counts as a space. -/
  folded : Bool
  chomping : Chomping := .clip
  /-- How far the text is indented, if that is given. -/
  increment : Option Nat := none
deriving Repr

namespace Cursor

/-- Past the spaces, the comment and the line end that may still stand on a line. -/
def restOfLine (s : Cursor) : Except Fault Cursor :=
  let s := s.skipWhile (· = ' ')
  let s := if s.sees '#' then s.skipWhile (!isBreak ·) else s
  if endsLine s.peek then .ok s.lineBreak.2 else .error .malformed

/-- The mark for the last line ends. -/
def chomping? : Option Char → Option Chomping
  | some '+' => some .keep
  | some '-' => some .strip
  | _ => none

/-- The mark for the line ends, if one is there. -/
def readChomping (style : BlockStyle) (s : Cursor) : BlockStyle × Cursor :=
  match chomping? s.peek with
  | some c => ({ style with chomping := c }, s.step)
  | none => (style, s)

/-- The digit for the indentation, if one is there; it is not zero. -/
def readIncrement (style : BlockStyle) (s : Cursor) : Except Fault (BlockStyle × Cursor) :=
  match s.peek.bind Text.asciiDigit? with
  | some 0 => .error .malformed
  | some n => .ok ({ style with increment := some n }, s.step)
  | none => .ok (style, s)

/-- The marks of a block scalar, in either order. -/
def blockStyle (folded : Bool) (s : Cursor) : Except Fault (BlockStyle × Cursor) := do
  let (style, s) ←
    if (chomping? s.peek).isSome then
      let (style, s) := readChomping { folded } s
      readIncrement style s
    else do
      let (style, s) ← readIncrement { folded } s
      pure (if style.increment.isSome then readChomping style s else (style, s))
  if endsField s.peek then return (style, s) else throw .malformed

/-- Past the empty lines in front of a text whose indentation is not given: the line ends, and the
    furthest column that was reached. -/
def leadingLines : Nat → String → Nat → Cursor → String × Nat × Cursor
  | 0, lines, widest, s => (lines, widest, s)
  | fuel + 1, lines, widest, s =>
    if s.sees ' ' then
      let s := s.step
      leadingLines fuel lines (max widest s.column) s
    else if s.seesBreak then
      let (lineEnd, s) := s.lineBreak
      leadingLines fuel (lines ++ lineEnd) widest s
    else (lines, widest, s)

/-- Past the empty lines between lines of text, and the indentation of the next one: the line
    ends. -/
def emptyLines (indent : Nat) : Nat → String → Cursor → String × Cursor
  | 0, lines, s => (lines, s)
  | fuel + 1, lines, s =>
    if s.column < indent && s.sees ' ' then emptyLines indent fuel lines s.step
    else if s.seesBreak then
      let (lineEnd, s) := s.lineBreak
      emptyLines indent fuel (lines ++ lineEnd) s
    else (lines, s)

/-- The lines of text at column `indent`, after `text` and the empty lines in `between`.  Answers
    the text, the line end after its last line and the empty lines that follow. -/
def blockLines (folded : Bool) (indent : Nat) : Nat → String → String → Cursor →
    String × String × String × Cursor
  | 0, text, between, s => (text, "", between, s)
  | fuel + 1, text, between, s =>
    let line := s.rest.takeWhile (!isBreak ·)
    let (lineEnd, rest) := (s.skip line.length).lineBreak
    let (more, rest) := emptyLines indent fuel "" rest
    let text := text ++ between ++ String.ofList line
    if rest.column = indent && !rest.rest.isEmpty then
      let indented (s : Cursor) := s.sees ' ' || s.sees '\t'
      let joint :=
        if folded && lineEnd = "\n" && !indented s && !indented rest then
          if more = "" then " " else ""
        else lineEnd
      blockLines folded indent fuel (text ++ joint) more rest
    else (text, lineEnd, more, rest)

/-- The text of a block scalar, from behind its first mark. -/
def blockText (fuel : Nat) (folded : Bool) (s : Cursor) : Except Fault (String × Cursor) := do
  let (style, s) ← blockStyle folded s
  let s ← s.restOfLine
  let least := max 1 (s.indent + 1).toNat
  let (indent, between, s) := match style.increment with
    | some n =>
      let (lines, s) := emptyLines (least + n - 1) fuel "" s
      (least + n - 1, lines, s)
    | none =>
      let (lines, widest, s) := leadingLines fuel "" 0 s
      (max least widest, lines, s)
  let (text, lineEnd, more, s) :=
    if s.column = indent && !s.rest.isEmpty then blockLines folded indent fuel "" between s
    else ("", "", between, s)
  return match style.chomping with
    | .strip => (text, s)
    | .clip => (text ++ lineEnd, s)
    | .keep => (text ++ lineEnd ++ more, s)

end Cursor

end Constructions.Yaml
