import Collate.Main
import Collate.Proofs.Text.Slice
import Collate.Proofs.Token.Lexeme
import Collate.Proofs.Token.Pieces
import Collate.Proofs.Token.Failure
import Collate.Proofs.Token.Lossless
import Collate.Proofs.Grammar.Outcome
import Collate.Proofs.Grammar.Progress
import Collate.Proofs.Grammar.Loops
import Collate.Proofs.Grammar.Argument
import Collate.Proofs.Grammar.Call
import Collate.Proofs.Grammar.Body
import Collate.Proofs.Grammar.Statement
import Collate.Proofs.Node.Forest
import Collate.Proofs.Node.Preorder
import Collate.Proofs.Node.Ancestors
import Collate.Proofs.Build.Follows
import Collate.Proofs.Build.Pushed
import Collate.Proofs.Build.Loops
import Collate.Proofs.Build.Argument
import Collate.Proofs.Build.Call
import Collate.Proofs.Build.Body
import Collate.Proofs.Build.Statement
import Collate.Proofs.Document.Read
import Collate.Proofs.Document.Placed
import Collate.Proofs.Token.Repeated
import Collate.Proofs.Document.Copies
import Collate.Proofs.Document.WellFormed
import Collate.Proofs.Document.Answer
import Collate.Proofs.Text.Edit
import Collate.Proofs.Text.Lines
import Collate.Proofs.Sequence.Safe
import Collate.Proofs.Sequence.Fits
import Collate.Proofs.Sequence.Order
import Collate.Proofs.Sequence.Arrangement
import Collate.Proofs.Rule
import Collate.Proofs.Correction
import Collate.Proofs.Lint
import Collate.Proofs.Correction.Applied
import Collate.Proofs.Command.Files
import Collate.Proofs.Rule.Literals
import Collate.Proofs.Token.Comments
import Collate.Proofs.Rule.Shorthand
import Collate.Proofs.Rule.Comments
import Collate.Proofs.Node.Outline
import Collate.Proofs.Twin.Basic
import Collate.Proofs.Twin.Argument
import Collate.Proofs.Twin.Call
import Collate.Proofs.Twin.Body
import Collate.Proofs.Twin.Variable
import Collate.Proofs.Twin.Statement
import Collate.Proofs.Token.Local
import Collate.Proofs.Token.Spacing
import Collate.Proofs.Twin.Tokens
import Collate.Proofs.Rule.Abbreviation
import Collate.Proofs.Node.Shape
import Collate.Proofs.Document.Respaced
import Collate.Proofs.Rule.Signature
import Collate.Proofs.Scope.Basic
import Collate.Proofs.Scope.Loops
import Collate.Proofs.Scope.Argument
import Collate.Proofs.Scope.Call
import Collate.Proofs.Scope.Body
import Collate.Proofs.Scope.Statement
import Collate.Proofs.Scope.Sight
import Collate.Proofs.Scope.Exposed
import Collate.Proofs.Scope.Resolution
import Collate.Proofs.Sorting
import Collate.Proofs.Settings
import Collate.Proofs.Rule.Independence
import Collate.Proofs.Correction.Iteration
import Collate.Proofs.Json.Rendered
import Collate.Proofs.Command.Printed
import Collate.Proofs.Command.Agreement
import Collate.Proofs.Text.Woven
import Collate.Proofs.Text.Batch
import Collate.Proofs.Sequence.Woven
import Collate.Proofs.Separator.Basic
import Collate.Proofs.Separator.Gap
import Collate.Proofs.Separator.Sequence
import Collate.Proofs.Separator.Reordering
import Collate.Proofs.Token.Ends
import Collate.Proofs.Text.OpenLine
import Collate.Proofs.Sequence.Setting
import Collate.Proofs.Sequence.Standing
import Collate.Proofs.Sequence.Rearranged
import Collate.Proofs.Sequence.TrailingComma
import Collate.Proofs.Text.Bytes
import Collate.Proofs.Sequence.Canonical
import Collate.Proofs.Admission
import Collate.Proofs.Derivation.Form
import Collate.Proofs.Derivation.Loops
import Collate.Proofs.Derivation.Argument
import Collate.Proofs.Derivation.Call
import Collate.Proofs.Derivation.Body
import Collate.Proofs.Derivation.Statement
import Collate.Proofs.Derivation.Trees
import Collate.Proofs.Derivation.Document
import Collate.Proofs.Derivation.Shorthand
import Collate.Proofs.Derivation.Shelter
import Collate.Proofs.Derivation.Blocks
import Collate.Proofs.Text.Positions
import Collate.Proofs.Token.Quoted
import Collate.Proofs.Node.Built
import Collate.Proofs.Gather.Document
