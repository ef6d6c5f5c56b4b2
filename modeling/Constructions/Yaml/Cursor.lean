import Constructions.Yaml.Token

/-!
# Reading a text from left to right

* `Yaml.Cursor` -- the text still to be read, the place in it, what is open, and the tokens so far.
* `Yaml.Cursor.step` -- past one character.
* `Yaml.Cursor.unwind`, `open?` -- closing and opening block collections by their column.
* `Yaml.Candidate` -- a token that may turn out to be a key; `Yaml.Cursor.settled` -- the tokens
  that no such one holds up.

What is the key of a mapping is only known when its colon is met.  A candidate is therefore
remembered with its place among the tokens, one for each level of brackets, and the opening tokens
are put in front of it when the colon comes.  A key stands on one line and takes at most 1024
characters.
-/

namespace Constructions.Yaml

/-! ## 1. The place in the text -/

/-- A token that turns into a key when a colon follows it. -/
structure Candidate where
  /-- Its place among the tokens. -/
  position : Nat
  /-- Whether nothing but a key may stand here. -/
  required : Bool
  offset : Nat
  line : Nat
  column : Nat
deriving Repr

/-- The state of reading a text. -/
structure Cursor where
  rest : List Char
  offset : Nat
  line : Nat
  column : Nat
  /-- The column of the innermost open block collection, `-1` outside of all. -/
  indent : Int
  /-- The columns of the block collections around it. -/
  outer : List Int
  /-- Whether a key may begin here. -/
  keyAllowed : Bool
  /-- The candidate of the innermost brackets, or of the block when none are open. -/
  candidate : Option Candidate
  /-- The candidates of the brackets around them, the block last; empty when no bracket is open. -/
  enclosing : List (Option Candidate)
  tokens : Array Token

namespace Cursor

/-- At the start of a text. -/
def start (text : List Char) : Cursor where
  rest := text
  offset := 0
  line := 0
  column := 0
  indent := -1
  outer := []
  keyAllowed := true
  candidate := none
  enclosing := []
  tokens := #[]

/-- The next character. -/
def peek (s : Cursor) : Option Char := s.rest.head?

/-- The character `n` places on. -/
def peekAt (s : Cursor) (n : Nat) : Option Char := s.rest[n]?

/-- Whether the next character is `c`. -/
def sees (s : Cursor) (c : Char) : Bool := s.peek == some c

/-- Whether the next character ends a line. -/
def seesBreak (s : Cursor) : Bool := s.peek.any isBreak

/-- Whether brackets are open. -/
def inFlow (s : Cursor) : Bool := !s.enclosing.isEmpty

/-- Past one character.  A byte order mark takes no column. -/
def step (s : Cursor) : Cursor :=
  match s.rest with
  | [] => s
  | c :: rest =>
    if isBreak c then
      { s with rest := rest, offset := s.offset + 1, line := s.line + 1, column := 0 }
    else if c = byteOrderMark then { s with rest := rest, offset := s.offset + 1 }
    else { s with rest := rest, offset := s.offset + 1, column := s.column + 1 }

/-- Past `n` characters. -/
def skip (s : Cursor) : Nat → Cursor
  | 0 => s
  | n + 1 => s.step.skip n

/-- Past the characters at the front that satisfy `p`. -/
def skipWhile (s : Cursor) (p : Char → Bool) : Cursor := s.skip (s.rest.takeWhile p).length

/-- With one more token. -/
def push (s : Cursor) (t : Token) : Cursor := { s with tokens := s.tokens.push t }

/-- Past a line end, with the text it stands for. -/
def lineBreak (s : Cursor) : String × Cursor :=
  match s.peek with
  | some c =>
    if c.toNat = 0x2028 || c.toNat = 0x2029 then (c.toString, s.step)
    else if isBreak c then ("\n", s.step)
    else ("", s)
  | none => ("", s)

/-- Whether a line of three marks `c`, a document's start or end, begins here. -/
def seesMarks (s : Cursor) (c : Char) : Bool :=
  [c, c, c].isPrefixOf s.rest && endsWord (s.peekAt 3)

/-- Whether a document starts or ends here. -/
def seesBoundary (s : Cursor) : Bool := s.seesMarks '-' || s.seesMarks '.'

/-! ## 2. Indentation and keys -/

/-- Closes the block collections that begin further in than `column`. -/
def unwind (s : Cursor) (column : Int) : Cursor :=
  if s.inFlow then s
  else
    let rec close (s : Cursor) : List Int → Cursor
      | [] => s
      | indent :: outer =>
        if column < s.indent then
          close { s.push .blockEnd with indent := indent, outer := outer } outer
        else s
    close s s.outer

/-- Opens a block collection at `column`, if that is further in than the innermost one; answers
    whether it did. -/
def open? (s : Cursor) (column : Nat) : Option Cursor :=
  if s.indent < column then some { s with indent := column, outer := s.indent :: s.outer } else none

/-- Whether a candidate can no longer turn into a key. -/
def isStale (s : Cursor) (k : Candidate) : Bool := k.line != s.line || s.offset - k.offset > 1024

/-- What is left of a candidate; one that had to be a key and is not is an error. -/
def freshen (s : Cursor) : Option Candidate → Except Fault (Option Candidate)
  | none => .ok none
  | some k =>
    if !s.isStale k then .ok (some k) else if k.required then .error .malformed else .ok none

/-- Drops the candidates that can no longer turn into keys. -/
def dropStale (s : Cursor) : Except Fault Cursor := do
  let candidate ← s.freshen s.candidate
  let enclosing ← s.enclosing.mapM s.freshen
  return { s with candidate := candidate, enclosing := enclosing }

/-- Gives up the candidate of the innermost level. -/
def dropCandidate (s : Cursor) : Except Fault Cursor :=
  if s.candidate.any (·.required) then .error .malformed else .ok { s with candidate := none }

/-- Remembers that the token to come may be a key. -/
def saveCandidate (s : Cursor) : Except Fault Cursor :=
  if s.keyAllowed then do
    let s ← s.dropCandidate
    let required := !s.inFlow && s.indent == s.column
    return { s with candidate := some ⟨s.tokens.size, required, s.offset, s.line, s.column⟩ }
  else .ok s

/-- The tokens that are settled: those in front of every candidate that may still turn into a key,
    since other tokens may have to go before that one. -/
def settled (s : Cursor) : List Token :=
  let waiting := (s.candidate :: s.enclosing).filterMap fun k => k.filter (!s.isStale ·)
  s.tokens.toList.take ((waiting.map (·.position)).foldl min s.tokens.size)

end Cursor

end Constructions.Yaml
