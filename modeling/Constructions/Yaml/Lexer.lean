import Constructions.Yaml.Cursor.Mark
import Constructions.Yaml.Cursor.Text

/-!
# The tokens of a text

* `Yaml.Cursor.token` -- one more token, by the character it begins with.
* `Yaml.Token.ofText` -- the tokens of a text.
-/

namespace Constructions.Yaml

namespace Cursor

/-- Past blanks, comments and line ends; outside of brackets a key may begin on a new line. -/
def toToken : Nat → Cursor → Cursor
  | 0, s => s
  | fuel + 1, s =>
    let s := s.skipWhile (· = ' ')
    let s := if s.sees '#' then s.skipWhile (!isBreak ·) else s
    if s.seesBreak then
      let s := s.step
      toToken fuel (if s.inFlow then s else { s with keyAllowed := true })
    else s

/-- Opens brackets. -/
def openFlow (s : Cursor) (t : Token) : Except Fault Cursor := do
  let s ← s.saveCandidate
  return { s.step.push t with
    enclosing := s.candidate :: s.enclosing, candidate := none, keyAllowed := true }

/-- Closes brackets; there must be open ones. -/
def closeFlow (s : Cursor) (t : Token) : Except Fault Cursor := do
  let s ← s.dropCandidate
  match s.enclosing with
  | [] => throw .malformed
  | candidate :: enclosing =>
    return { s.step.push t with
      candidate := candidate, enclosing := enclosing, keyAllowed := false }

/-- The start or end of a document, which closes every block. -/
def boundary (s : Cursor) (t : Token) : Except Fault Cursor := do
  let s ← (s.unwind (-1)).dropCandidate
  return { (s.skip 3).push t with keyAllowed := false }

/-- In block style, opens the collection `t` at this column unless it is already open; a key or an
    entry must be allowed here. -/
def openBlock (s : Cursor) (t : Token) : Except Fault Cursor :=
  if s.inFlow then .ok s
  else if !s.keyAllowed then .error .malformed
  else .ok (match s.open? s.column with
    | some s => s.push t
    | none => s)

/-- An entry of a block sequence. -/
def blockEntry (s : Cursor) : Except Fault Cursor := do
  let s ← s.openBlock .blockSequence
  let s ← { s with keyAllowed := true }.dropCandidate
  return s.step.push .entry

/-- A key that is marked as one. -/
def markedKey (s : Cursor) : Except Fault Cursor := do
  let s ← s.openBlock .blockMapping
  let s ← { s with keyAllowed := !s.inFlow }.dropCandidate
  return s.step.push .key

/-- The colon before a value.  If a candidate waits, it is a key now: the tokens that open the
    mapping and the key go in front of it. -/
def valueMark (s : Cursor) : Except Fault Cursor :=
  match s.candidate with
  | some k =>
    let before := s.tokens.extract 0 k.position
    let after := s.tokens.extract k.position s.tokens.size
    let (opening, s) :=
      if s.inFlow then (#[Token.key], s)
      else match s.open? k.column with
        | some s => (#[Token.blockMapping, Token.key], s)
        | none => (#[Token.key], s)
    .ok { s.step with
      candidate := none, keyAllowed := false, tokens := (before ++ opening ++ after).push .value }
  | none => do
    let s ← s.openBlock .blockMapping
    let s ← { s with keyAllowed := !s.inFlow }.dropCandidate
    return s.step.push .value

/-- A token that may be a key, read by `read`. -/
def keyLike (s : Cursor) (read : Cursor → Except Fault (Token × Cursor)) : Except Fault Cursor := do
  let s ← s.saveCandidate
  let (t, s) ← read { s with keyAllowed := false }
  return s.push t

/-- A quoted scalar. -/
def readQuoted (fuel : Nat) (double : Bool) (s : Cursor) : Except Fault (Token × Cursor) := do
  let (text, s) ← quotedText double fuel "" s.step
  return (.scalar text false, s)

/-- A plain scalar. -/
def readPlain (fuel : Nat) (s : Cursor) : Except Fault (Token × Cursor) :=
  let (text, s) := plainText (s.indent + 1) fuel "" "" s
  .ok (.scalar text true, s)

/-- An anchor or a reference to one, as `mark` makes it. -/
def readAnchor (mark : String → Token) (s : Cursor) : Except Fault (Token × Cursor) := do
  let (name, s) ← s.readName
  return (mark name, s)

/-- A text on the lines that follow; a key may come after it. -/
def blockScalar (fuel : Nat) (folded : Bool) (s : Cursor) : Except Fault Cursor := do
  let s ← { s with keyAllowed := true }.dropCandidate
  let (text, s) ← blockText fuel folded s.step
  return s.push (.scalar text false)

/-- A line in front of a document, which closes every block. -/
def directiveLine (s : Cursor) : Except Fault Cursor := do
  let s ← (s.unwind (-1)).dropCandidate
  let (d, s) ← { s with keyAllowed := false }.readDirective
  return s.push (.directive d)

/-- The token at the front of a text that is not used up. -/
def token (fuel : Nat) (c : Char) (s : Cursor) : Except Fault Cursor :=
  let next := s.peekAt 1
  let alone := s.inFlow || endsWord next
  if s.column = 0 && c = '%' then s.directiveLine
  else if s.column = 0 && s.seesMarks '-' then s.boundary .documentStart
  else if s.column = 0 && s.seesMarks '.' then s.boundary .documentEnd
  else if c = '[' then s.openFlow .flowSequence
  else if c = '\x7b' then s.openFlow .flowMapping
  else if c = ']' then s.closeFlow .flowSequenceEnd
  else if c = '\x7d' then s.closeFlow .flowMappingEnd
  else if c = ',' then do
    let s ← { s with keyAllowed := true }.dropCandidate
    return s.step.push .comma
  else if c = '-' && endsWord next then s.blockEntry
  else if c = '?' && alone then s.markedKey
  else if c = ':' && alone then s.valueMark
  else if c = '*' then s.keyLike (readAnchor .reference)
  else if c = '&' then s.keyLike (readAnchor .anchor)
  else if c = '!' then s.keyLike readTag
  else if c = '|' && !s.inFlow then s.blockScalar fuel false
  else if c = '>' && !s.inFlow then s.blockScalar fuel true
  else if c = '\x27' then s.keyLike (readQuoted fuel false)
  else if c = '\x22' then s.keyLike (readQuoted fuel true)
  else if !(endsWord (some c) || isIndicator c)
      || (!endsWord next && (c = '-' || (!s.inFlow && (c = '?' || c = ':')))) then
    s.keyLike (readPlain fuel)
  else .error .malformed

/-- The tokens up to the end of the text, where every block is closed. -/
def finished (s : Cursor) : Except Fault (List Token) := do
  let s ← (s.unwind (-1)).dropCandidate
  return (s.push .finish).tokens.toList

/-- Reads token after token to the end of the text.  Where a scalar has no value the text is read no
    further, and the tokens that were settled by then are all that there are. -/
def run (length : Nat) : Nat → Cursor → Except Fault (List Token)
  | 0, _ => .error .malformed
  | fuel + 1, s => do
    let next ← (s.toToken length).dropStale
    let next := next.unwind next.column
    match next.peek with
    | none => next.finished
    | some c =>
      match next.token length c with
      | .ok next => run length fuel next
      | .error (.scalar x) => .ok (s.settled ++ [.broken x])
      | .error x => .error x

end Cursor

/-- The tokens of a text, which must not hold a character or a form that no document may. -/
def Token.ofText (text : List Char) : Except Fault (List Token) :=
  if text.all isAdmissible then
    let s := Cursor.start text
    let s := if s.sees byteOrderMark then s.step else s
    let length := text.length + 1
    s.run length length
  else .error .malformed

end Constructions.Yaml
