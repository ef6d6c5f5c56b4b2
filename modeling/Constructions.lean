import Constructions.Assoc
import Constructions.Config.Basic
import Constructions.Config.Load
import Constructions.Config.Tree
import Constructions.Context
import Constructions.Decimal.Binary64
import Constructions.Decimal.Reading
import Constructions.Decimal.Shortest
import Constructions.Json.Basic
import Constructions.Json.Parse
import Constructions.Json.Render
import Constructions.Log
import Constructions.Proofs.Binding
import Constructions.Proofs.Cap
import Constructions.Proofs.Coherence
import Constructions.Proofs.Config.Loading
import Constructions.Proofs.Config.Nearest
import Constructions.Proofs.Conversion
import Constructions.Proofs.Displayed
import Constructions.Proofs.Faults
import Constructions.Proofs.Fixpoints
import Constructions.Proofs.Json.Limit
import Constructions.Proofs.Json.Roundtrip
import Constructions.Proofs.Known
import Constructions.Proofs.Moves
import Constructions.Proofs.Named.Basic
import Constructions.Proofs.Named.Build
import Constructions.Proofs.Nameless.Basic
import Constructions.Proofs.Nameless.Erase
import Constructions.Proofs.Nameless.Fill
import Constructions.Proofs.Nameless.Leaves
import Constructions.Proofs.Nameless.Reduction
import Constructions.Proofs.Nameless.Settled
import Constructions.Proofs.Nameless.Standard
import Constructions.Proofs.Normalisation
import Constructions.Proofs.Typing.Calculus
import Constructions.Proofs.Typing.Classifier
import Constructions.Proofs.Typing.Closed
import Constructions.Proofs.Typing.Declarations
import Constructions.Proofs.Typing.Exchange
import Constructions.Proofs.Typing.Model
import Constructions.Proofs.Typing.Parts
import Constructions.Proofs.Typing.Preservation
import Constructions.Proofs.Typing.Scope
import Constructions.Proofs.Typing.Soundness
import Constructions.Proofs.Typing.SubjectReduction
import Constructions.Proofs.Typing.Yields
import Constructions.Session
import Constructions.Term.Expr
import Constructions.Term.Index
import Constructions.Term.Pass
import Constructions.Term.Render
import Constructions.Term.Shift
import Constructions.Term.Subst
import Constructions.Text.Blank
import Constructions.Text.Digit
import Constructions.Text.Printable
import Constructions.Text.Quoted
import Constructions.Text.Utf8
import Constructions.Typing.Derive
import Constructions.Typing.Fuel
import Constructions.Typing.Normalize
import Constructions.Typing.Run
import Constructions.TypingError
import Constructions.Value.Basic
import Constructions.Value.Integer
import Constructions.Value.Moment
import Constructions.Yaml.Cursor
import Constructions.Yaml.Cursor.Block
import Constructions.Yaml.Cursor.Mark
import Constructions.Yaml.Cursor.Text
import Constructions.Yaml.Document
import Constructions.Yaml.Fault
import Constructions.Yaml.Form
import Constructions.Yaml.Lexer
import Constructions.Yaml.Node
import Constructions.Yaml.Scalar
import Constructions.Yaml.Timestamp
import Constructions.Yaml.Token
import Constructions.Proofs.Grammar
import Constructions.Proofs.Rendering
import Constructions.Proofs.Typing.LambdaFree
import Constructions.Proofs.History
