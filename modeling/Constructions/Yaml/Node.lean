import Constructions.Assoc
import Constructions.Yaml.Form
import Constructions.Yaml.Token

/-!
# Nodes of YAML documents

* `Yaml.Node` -- a scalar, a sequence or a mapping, with its tag.
* `Yaml.Node.form?` -- the form that a node's tag and look ask for.
* `Yaml.Node.Reader` -- reading with the tokens that are left, the handles of tags and the nodes
  with anchors.  To look at the place where the text broke is what reports the fault.
* `Yaml.Node.ofTokens` -- the node of a token list that is one document.

Each reader takes a bound on the number of its calls, which four times the number of tokens always
meets.
-/

namespace Constructions.Yaml

/-! ## 1. Nodes -/

/-- The tree of a document. -/
inductive Node
  | scalar (tag : Option String) (text : String) (plain : Bool)
  | sequence (tag : Option String) (items : List Node)
  | mapping (tag : Option String) (entries : List (Node × Node))
deriving Inhabited

namespace Node

/-- The node of a place where nothing stands. -/
def blank : Node := scalar none "" true

/-- The tag that leaves the form to the look of a node. -/
def openTag : String := "!"

/-- The form of a node that shows the form `shown`. -/
def formWith (tag : Option String) (shown : Form) : Option Form :=
  match tag with
  | none => some shown
  | some t => if t = openTag then some shown else Form.ofTag? t

/-- The form that a node's tag and look ask for; `none` if the tag is not known.  The text of a
    quoted scalar shows nothing by itself. -/
def form? : Node → Option Form
  | scalar tag text plain =>
    formWith tag (if plain || tag = some openTag then .ofText text else .text)
  | sequence tag _ => formWith tag .list
  | mapping tag _ => formWith tag .map

/-! ## 2. Reading -/

/-- What a reader works on. -/
structure Source where
  tokens : List Token
  /-- What the handles of tags stand for. -/
  handles : List (String × String)
  /-- The nodes with anchors, `none` for one that is still being read. -/
  anchors : List (String × Option Node)

/-- A reader of nodes. -/
abbrev Reader := StateT Source (Except Fault)

namespace Reader

/-- The next token. -/
def peek : Reader Token := do
  match (← get).tokens with
  | [] => throw .malformed
  | .broken x :: _ => throw (.scalar x)
  | t :: _ => return t

/-- Past one token. -/
def advance : Reader Unit := modify fun s => { s with tokens := s.tokens.tail }

/-- Whether the next token is one of those. -/
def sees (marks : List Token) : Reader Bool := return marks.contains (← peek)

/-- An anchor, if one comes next. -/
def anchor? : Reader (Option String) := do
  match ← peek with
  | .anchor name =>
    advance
    return some name
  | _ => return none

/-- A tag, if one comes next. -/
def tag? : Reader (Option (Option String × String)) := do
  match ← peek with
  | .tag handle suffix =>
    advance
    return some (handle, suffix)
  | _ => return none

/-- The anchor and the tag in front of a node, in either order. -/
def properties : Reader (Option String × Option (Option String × String)) := do
  match ← anchor? with
  | some name => return (some name, ← tag?)
  | none => do
    let tag ← tag?
    if tag.isSome then return (← anchor?, tag) else return (none, none)

/-- A tag in full.  Its handle must be known. -/
def expand : Option String × String → Reader String
  | (none, suffix) => return suffix
  | (some handle, suffix) => do
    match (← get).handles.lookup handle with
    | some expansion => return expansion ++ suffix
    | none => throw .malformed

/-- Notes that a node with an anchor begins; no two nodes have the same anchor. -/
def openAnchor : Option String → Reader Unit
  | none => return ()
  | some name => do
    if ((← get).anchors.lookup name).isSome then throw .malformed
    modify fun s => { s with anchors := (name, none) :: s.anchors }

/-- Keeps the node of an anchor. -/
def closeAnchor (node : Node) : Option String → Reader Unit
  | none => return ()
  | some name => modify fun s => { s with anchors := Assoc.put name (some node) s.anchors }

/-- The node with an anchor.  It must have been read; a node does not contain itself. -/
def anchored (name : String) : Reader Node := do
  match (← get).anchors.lookup name with
  | some (some node) => return node
  | _ => throw .malformed

/-- Past the comma in front of every item in brackets but the first. -/
def separator (first : Bool) : Reader Unit := do
  if !first then
    if ← sees [.comma] then advance else throw .malformed

end Reader

open Reader

mutual

/-- A node.  `block` admits block collections, `indentless` also a sequence whose entries stand at
    the column of the key they belong to.  After an anchor or a tag nothing needs to follow. -/
def readNode (block indentless : Bool) : Nat → Reader Node
  | 0 => throw .malformed
  | fuel + 1 => do
    match ← peek with
    | .reference name =>
      advance
      anchored name
    | _ =>
      let (anchor, tag) ← properties
      let next ← peek
      let tag ← tag.mapM expand
      openAnchor anchor
      let node ← readContent block indentless tag (anchor.isSome || tag.isSome) fuel next
      closeAnchor node anchor
      return node

/-- What follows the anchor and the tag of a node; `next` is the next token. -/
def readContent (block indentless : Bool) (tag : Option String) (optional : Bool) :
    Nat → Token → Reader Node
  | 0, _ => throw .malformed
  | fuel + 1, next =>
    match next, block, indentless with
    | .entry, _, true => do return sequence tag (← readIndentlessItems fuel)
    | .scalar text plain, _, _ => do
      advance
      return scalar tag text plain
    | .flowSequence, _, _ => do
      advance
      return sequence tag (← readFlowItems true fuel)
    | .flowMapping, _, _ => do
      advance
      return mapping tag (← readFlowEntries true fuel)
    | .blockSequence, true, _ => do
      advance
      return sequence tag (← readBlockItems fuel)
    | .blockMapping, true, _ => do
      advance
      return mapping tag (← readBlockEntries fuel)
    | _, _, _ => if optional then return scalar tag "" true else throw .malformed

/-- A node, or the blank one if one of `ends` follows. -/
def readOptional (block indentless : Bool) (ends : List Token) : Nat → Reader Node
  | 0 => throw .malformed
  | fuel + 1 => do if ← sees ends then return blank else readNode block indentless fuel

/-- The entries of a block sequence up to its end. -/
def readBlockItems : Nat → Reader (List Node)
  | 0 => throw .malformed
  | fuel + 1 => do
    match ← peek with
    | .entry =>
      advance
      let item ← readOptional true false [.entry, .blockEnd] fuel
      return item :: (← readBlockItems fuel)
    | .blockEnd =>
      advance
      return []
    | _ => throw .malformed

/-- The entries of a sequence that stands at the column of its key; it has no end of its own. -/
def readIndentlessItems : Nat → Reader (List Node)
  | 0 => throw .malformed
  | fuel + 1 => do
    match ← peek with
    | .entry =>
      advance
      let item ← readOptional true false [.entry, .key, .value, .blockEnd] fuel
      return item :: (← readIndentlessItems fuel)
    | _ => return []

/-- The entries of a block mapping up to its end.  A key may lack its value, and a value its key's
    mark only after a key. -/
def readBlockEntries : Nat → Reader (List (Node × Node))
  | 0 => throw .malformed
  | fuel + 1 => do
    match ← peek with
    | .key =>
      advance
      let key ← readOptional true true [.key, .value, .blockEnd] fuel
      let value ← readValue true [.key, .value, .blockEnd] fuel
      return (key, value) :: (← readBlockEntries fuel)
    | .blockEnd =>
      advance
      return []
    | _ => throw .malformed

/-- The value after a key, blank if there is none or if one of `ends` follows its mark. -/
def readValue (block : Bool) (ends : List Token) : Nat → Reader Node
  | 0 => throw .malformed
  | fuel + 1 => do
    match ← peek with
    | .value =>
      advance
      readOptional block block ends fuel
    | _ => return blank

/-- The items of a sequence in brackets up to its end; a key makes an item a mapping of one
    entry. -/
def readFlowItems (first : Bool) : Nat → Reader (List Node)
  | 0 => throw .malformed
  | fuel + 1 => do
    if ← sees [.flowSequenceEnd] then
      advance
      return []
    separator first
    match ← peek with
    | .flowSequenceEnd =>
      advance
      return []
    | .key =>
      advance
      let key ← readOptional false false [.value, .comma, .flowSequenceEnd] fuel
      let value ← readValue false [.comma, .flowSequenceEnd] fuel
      return mapping none [(key, value)] :: (← readFlowItems false fuel)
    | _ =>
      let item ← readNode false false fuel
      return item :: (← readFlowItems false fuel)

/-- The entries of a mapping in brackets up to its end. -/
def readFlowEntries (first : Bool) : Nat → Reader (List (Node × Node))
  | 0 => throw .malformed
  | fuel + 1 => do
    if ← sees [.flowMappingEnd] then
      advance
      return []
    separator first
    match ← peek with
    | .flowMappingEnd =>
      advance
      return []
    | .key =>
      advance
      let key ← readOptional false false [.value, .comma, .flowMappingEnd] fuel
      let value ← readValue false [.comma, .flowMappingEnd] fuel
      return (key, value) :: (← readFlowEntries false fuel)
    | _ =>
      let key ← readNode false false fuel
      return (key, blank) :: (← readFlowEntries false fuel)

end

/-! ## 3. Documents -/

/-- What handles stand for unless a document says otherwise. -/
def defaultHandles : List (String × String) := [("!", "!"), ("!!", coreTag)]

/-- The lines in front of a document.  `versioned` says whether the version was given; a handle is
    explained only once. -/
def readDirectives (versioned : Bool) (handles : List (String × String)) : Nat → Reader Unit
  | 0 => throw .malformed
  | fuel + 1 => do
    match ← peek with
    | .directive d =>
      advance
      match d with
      | .version major =>
        if versioned || major ≠ 1 then throw .malformed
        readDirectives true handles fuel
      | .handle name expansion =>
        if (handles.lookup name).isSome then throw .malformed
        readDirectives versioned ((name, expansion) :: handles) fuel
      | .other => readDirectives versioned handles fuel
    | _ => modify fun s => { s with handles := handles ++ defaultHandles }

/-- Past the marks that end documents. -/
def skipEnds : Nat → Reader Unit
  | 0 => throw .malformed
  | fuel + 1 => do
    if ← sees [.documentEnd] then
      advance
      skipEnds fuel

/-- The end of the text, after the one document in it. -/
def readEnd (fuel : Nat) : Reader Unit := do
  skipEnds fuel
  if !(← sees [.finish]) then
    readDirectives false [] fuel
    throw .malformed

/-- What follows the mark that starts a document. -/
def readMarked (fuel : Nat) : Reader Node := do
  match ← peek with
  | .directive _ | .documentStart | .documentEnd | .finish => return blank
  | _ => readNode true false fuel

/-- The node of a document, `none` if there is no document at all. -/
def readDocument (fuel : Nat) : Reader (Option Node) := do
  match ← peek with
  | .finish => return none
  | .directive _ | .documentStart =>
    readDirectives false [] fuel
    if !(← sees [.documentStart]) then throw .malformed
    advance
    let node ← readMarked fuel
    readEnd fuel
    return some node
  | _ =>
    let node ← readNode true false fuel
    readEnd fuel
    return some node

/-- The node of tokens that are one document, `none` if they are no document at all. -/
def ofTokens (ts : List Token) : Except Fault (Option Node) := do
  let (node, _) ← (readDocument (4 * ts.length + 4)).run ⟨ts, defaultHandles, []⟩
  return node

end Node

end Constructions.Yaml
