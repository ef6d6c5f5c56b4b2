import Constructions.Text.Digit
import Constructions.Yaml.Cursor

/-!
# The texts of scalars

* `Yaml.Cursor.quotedText` -- between quotes: escapes in double quotes, a doubled quote in single
  ones; a line end counts as a blank and further ones are kept.  An escape may name a character that
  does not exist, and the text is then read no further.
* `Yaml.Cursor.plainText` -- without quotes, on as many lines as are indented far enough.

The readers of texts take a bound on their steps, which the length of the text always meets.
-/

namespace Constructions.Yaml.Cursor

/-! ## 1. Quoted text -/

/-- The line ends and blanks inside quotes after a first line end: the empty lines among them. -/
def quotedBreaks : Nat → String → Cursor → Except Fault (String × Cursor)
  | 0, _, _ => .error .malformed
  | fuel + 1, text, s =>
    if s.seesBoundary then .error .malformed
    else
      let s := s.skipWhile fun c => c = ' ' || c = '\t'
      if s.seesBreak then
        let (lineEnd, s) := s.lineBreak
        quotedBreaks fuel (text ++ lineEnd) s
      else .ok (text, s)

/-- Blanks inside quotes: kept within a line; a line end is a blank, and further ones are kept. -/
def quotedBlanks (fuel : Nat) (s : Cursor) : Except Fault (String × Cursor) :=
  let blanks := s.rest.takeWhile fun c => c = ' ' || c = '\t'
  let s := s.skip blanks.length
  if s.rest.isEmpty then .error .malformed
  else if s.seesBreak then do
    let (lineEnd, s) := s.lineBreak
    let (more, s) ← quotedBreaks fuel "" s
    let first := if lineEnd ≠ "\n" then lineEnd else if more = "" then " " else ""
    return (first ++ more, s)
  else .ok (String.ofList blanks, s)

/-- The character that an escape in double quotes stands for. -/
def escaped? (c : Char) : Option Char :=
  [('0', 0), ('a', 7), ('b', 8), ('t', 9), ('\t', 9), ('n', 10), ('v', 11), ('f', 12), ('r', 13),
    ('e', 27), (' ', 32), ('\x22', 34), ('\\', 92), ('/', 47), ('N', 0x85), ('_', 0xA0),
    ('L', 0x2028), ('P', 0x2029)].lookup c |>.map Char.ofNat

/-- The number of hexadecimal digits after an escape. -/
def escapeWidth? : Char → Option Nat
  | 'x' => some 2
  | 'u' => some 4
  | 'U' => some 8
  | _ => none

/-- The character of a number; not every number has one. -/
def charOf (code : Nat) : Except Fault Char :=
  if code < 0x110000 then .ok (Char.ofNat code)
  else .error (.scalar (if code < 0x80000000 then .escapeBeyond else .escapeOverflow))

/-- The character that `width` hexadecimal digits at the front of a text name. -/
def hexChar (width : Nat) (s : List Char) : Except Fault Char :=
  match (s.take width).mapM Text.hexDigit? with
  | some digits =>
    if digits.length < width then .error .malformed else charOf (Text.ofDigits 16 digits)
  | none => .error .malformed

/-- The text of a double- or single-quoted scalar up to its closing quote, after `text`. -/
def quotedText (double : Bool) : Nat → String → Cursor → Except Fault (String × Cursor)
  | 0, _, _ => .error .malformed
  | fuel + 1, text, s =>
    match s.rest with
    | [] => .error .malformed
    | c :: rest =>
      if c = '\x27' && !double then
        if rest.head? = some '\x27' then quotedText double fuel (text.push '\x27') (s.skip 2)
        else .ok (text, s.step)
      else if c = '\x22' && double then .ok (text, s.step)
      else if c = '\\' && double then
        match rest with
        | [] => .error .malformed
        | e :: more =>
          match escaped? e, escapeWidth? e with
          | some plain, _ => quotedText double fuel (text.push plain) (s.skip 2)
          | none, some width => do
            quotedText double fuel (text.push (← hexChar width more)) (s.skip (2 + width))
          | none, none =>
            if isBreak e then do
              let (_, s) := s.step.lineBreak
              let (more, s) ← quotedBreaks fuel "" s
              quotedText double fuel (text ++ more) s
            else .error .malformed
      else if endsWord (some c) then do
        let (blanks, s) ← quotedBlanks fuel s
        quotedText double fuel (text ++ blanks) s
      else quotedText double fuel (text.push c) s.step

/-! ## 2. Plain text -/

/-- The length of the run of plain text at the front: it ends at a blank, at a colon before one, and
    inside brackets also at the marks that separate items. -/
def plainLength (flow : Bool) : List Char → Nat
  | [] => 0
  | c :: rest =>
    let colon := c = ':' && (endsWord rest.head? || flow && rest.head?.any isFlowMark)
    if endsWord (some c) || colon || flow && (c = '?' || isFlowMark c) then 0
    else plainLength flow rest + 1

/-- The empty lines and blanks after a first line end, up to the next text; `none` where a document
    starts or ends. -/
def plainBreaks : Nat → String → Cursor → Option String × Cursor
  | 0, text, s => (some text, s)
  | fuel + 1, text, s =>
    if s.sees ' ' then plainBreaks fuel text s.step
    else if s.seesBreak then
      let (lineEnd, s) := s.lineBreak
      if s.seesBoundary then (none, s) else plainBreaks fuel (text ++ lineEnd) s
    else (some text, s)

/-- What stands between two runs of plain text: blanks, or line ends, after which a key may begin;
    `none` if there is nothing or the document ends. -/
def plainBlanks (fuel : Nat) (s : Cursor) : Option String × Cursor :=
  let blanks := s.rest.takeWhile (· = ' ')
  let s := s.skip blanks.length
  if s.seesBreak then
    let (lineEnd, s) := s.lineBreak
    let s := { s with keyAllowed := true }
    if s.seesBoundary then (none, s)
    else
      match plainBreaks fuel "" s with
      | (none, s) => (none, s)
      | (some more, s) =>
        let first := if lineEnd ≠ "\n" then lineEnd else if more = "" then " " else ""
        (some (first ++ more), s)
  else (if blanks.isEmpty then none else some (String.ofList blanks), s)

/-- Plain text, which may go on over lines that are indented at least to `indent`; `between` stands
    before what follows `text`. -/
def plainText (indent : Int) : Nat → String → String → Cursor → String × Cursor
  | 0, text, _, s => (text, s)
  | fuel + 1, text, between, s =>
    let length := plainLength s.inFlow s.rest
    if s.sees '#' || length = 0 then (text, s)
    else
      let text := text ++ between ++ String.ofList (s.rest.take length)
      match plainBlanks fuel { s.skip length with keyAllowed := false } with
      | (none, s) => (text, s)
      | (some between, s) =>
        if s.sees '#' || (!s.inFlow && s.column < indent) then (text, s)
        else plainText indent fuel text between s

end Constructions.Yaml.Cursor
