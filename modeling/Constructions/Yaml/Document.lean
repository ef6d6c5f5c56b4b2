import Constructions.Yaml.Lexer
import Constructions.Yaml.Node
import Constructions.Yaml.Scalar

/-!
# YAML documents

* `Yaml.Node.merged` -- the entries of a mapping with those that the mark `<<` asks for.
* `Yaml.Node.check` -- whether a document has a value.  Its nodes are looked at level by level, so
  that of two faults the one closer to the root counts.
* `Yaml.Node.toValue` -- the value of a node.
* `Yaml.parse` -- the value of a text.
-/

namespace Constructions.Yaml

namespace Node

/-! ## 1. Scalars and entries -/

mutual

/-- The text of a node where a scalar is asked for; a mapping can have one under the mark `=`. -/
def scalarText : Node → Except Fault String
  | scalar _ text _ => .ok text
  | sequence .. => .error .malformed
  | mapping _ entries => defaultText entries

/-- The text under the mark `=`. -/
def defaultText : List (Node × Node) → Except Fault String
  | [] => .error .malformed
  | (key, value) :: rest =>
    if key.form? = some .default then value.scalarText else defaultText rest

end

mutual

/-- The entries that a mapping takes from others, and its own. -/
def splitEntries : List (Node × Node) → Except Fault (List (Node × Node) × List (Node × Node))
  | [] => .ok ([], [])
  | (key, value) :: rest =>
    if key.form? = some .merge then do
      let front ← takenFrom value
      let (taken, own) ← splitEntries rest
      return (front ++ taken, own)
    else do
      let (taken, own) ← splitEntries rest
      return (taken, (key, value) :: own)

/-- The entries taken from a mapping, or from the mappings of a list, the last of which comes
    first. -/
def takenFrom : Node → Except Fault (List (Node × Node))
  | scalar .. => .error .malformed
  | mapping _ entries => do
    let (taken, own) ← splitEntries entries
    return taken ++ own
  | sequence _ items => takenFromAll items

/-- The entries taken from the mappings of a list. -/
def takenFromAll : List Node → Except Fault (List (Node × Node))
  | [] => .ok []
  | mapping _ entries :: rest => do
    let (taken, own) ← splitEntries entries
    return (← takenFromAll rest) ++ taken ++ own
  | _ :: _ => .error .malformed

end

/-- All entries of a mapping: first those taken from others, which its own can override. -/
def merged (entries : List (Node × Node)) : Except Fault (List (Node × Node)) := do
  let (taken, own) ← splitEntries entries
  return taken ++ own

/-- The form of a key, for which the mark `=` is a text. -/
def keyForm? (key : Node) : Option Form :=
  if key.form? = some .default then some .text else key.form?

/-- The value of a node that is no collection by its form. -/
def scalarValue (node : Node) : Option Form → Except Fault Value
  | some form => do readAs form (← node.scalarText)
  | none => .error .malformed

/-- The value of a key.  A collection is none. -/
def keyValue (key : Node) : Except Fault Value := key.scalarValue key.keyForm?

/-- Whether a node is a collection by its form. -/
def isCollection (node : Node) : Bool := node.form? = some .list || node.form? = some .map

/-! ## 2. Faults, level by level -/

/-- Looks at a node: a scalar must have a value, a collection is left for later. -/
def touch (node : Node) : Except Fault (List Node) :=
  if node.isCollection then .ok [node]
  else do
    let _ ← node.scalarValue node.form?
    return []

/-- Looks at what a collection holds, and answers the collections among it. -/
def contents (node : Node) : Except Fault (List Node) :=
  match node.form?, node with
  | some .list, sequence _ items => do return (← items.mapM touch).flatten
  | some .map, mapping _ entries => do
    let collections ← (← merged entries).mapM fun (key, value) => do
      let _ ← key.keyValue
      value.touch
    return collections.flatten
  | _, _ => .error .malformed

/-- Looks at collections and at what they hold, down to `depth` levels. -/
def checkLevels : Nat → List Node → Except Fault Unit
  | _, [] => .ok ()
  | 0, _ => .error .malformed
  | depth + 1, level => do checkLevels depth (← level.mapM contents).flatten

/-- Looks at all nodes of a document of at most `depth` levels. -/
def check (depth : Nat) (node : Node) : Except Fault Unit := do checkLevels depth (← node.touch)

/-! ## 3. Values -/

/-- The value of a node of at most `depth` levels.  Of equal keys the later value counts. -/
def toValue : Nat → Node → Except Fault Value
  | 0, _ => .error .malformed
  | depth + 1, node =>
    match node.form?, node with
    | some .list, sequence _ items => do return .list (← items.mapM (toValue depth))
    | some .map, mapping _ entries => do
      let pairs ← (← merged entries).mapM fun (key, value) => do
        return (← key.keyValue, ← toValue depth value)
      return .map (pairs.foldl (fun done (k, v) => Assoc.put k v done) [])
    | form, node => node.scalarValue form

end Node

/-- The value of a text; one without a document is null. -/
def parse (text : List Char) : Except Fault Value := do
  let tokens ← Token.ofText text
  match ← Node.ofTokens tokens with
  | none => return .null
  | some node => do
    let depth := tokens.length + 1
    node.check depth
    node.toValue depth

end Constructions.Yaml
