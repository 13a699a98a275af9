import CommandLanguage.Main
import CommandLanguage.Proofs.Run.Ensures
import CommandLanguage.Proofs.Value.Callables
import CommandLanguage.Proofs.Expr.Shape
import CommandLanguage.Proofs.Fault.Computed
import CommandLanguage.Proofs.Eval.Invariant
import CommandLanguage.Proofs.Eval.Preservation
import CommandLanguage.Proofs.Eval.Confinement
import CommandLanguage.Proofs.Grammar.Gives
import CommandLanguage.Proofs.Grammar.Shape
import CommandLanguage.Proofs.Expr.Numbering
import CommandLanguage.Proofs.Session.Shape
import CommandLanguage.Proofs.Source.Literal
import CommandLanguage.Proofs.Reference.Escape
import CommandLanguage.Proofs.Token.Literal
import CommandLanguage.Proofs.Session.Literal
import CommandLanguage.Proofs.Reference.Piece
import CommandLanguage.Proofs.Reference.Pass
import CommandLanguage.Proofs.Reference.Splicing
import CommandLanguage.Proofs.Grammar.Depth
import CommandLanguage.Proofs.Grammar.Reads
import CommandLanguage.Proofs.Grammar.Climb
import CommandLanguage.Proofs.Grammar.Script
import CommandLanguage.Proofs.Eval.CallLimit
import CommandLanguage.Proofs.Source.Settled
import CommandLanguage.Proofs.Token.Arguments
import CommandLanguage.Proofs.Grammar.CallForms
import CommandLanguage.Proofs.Eval.Arguments
import CommandLanguage.Proofs.Session.CallForms
import CommandLanguage.Proofs.Eval.WriteBack
import CommandLanguage.Proofs.Source.Semicolon
import CommandLanguage.Proofs.Source.Word
import CommandLanguage.Proofs.Source.Stable
import CommandLanguage.Proofs.Token.Abreast
import CommandLanguage.Proofs.Token.Extend
import CommandLanguage.Proofs.Token.Passes
import CommandLanguage.Proofs.Grammar.Carries
import CommandLanguage.Proofs.Grammar.Concat
import CommandLanguage.Proofs.Source.Concat
import CommandLanguage.Proofs.Expr.Concat
import CommandLanguage.Proofs.Source.Parts
import CommandLanguage.Proofs.Source.Tokens
import CommandLanguage.Proofs.Reference.Filling
import CommandLanguage.Proofs.Reference.Descent
import CommandLanguage.Proofs.Eval.Emission
import CommandLanguage.Proofs.Session.Output
import CommandLanguage.Proofs.Token.Spelling
import CommandLanguage.Proofs.Token.Layout
import CommandLanguage.Proofs.Eval.Likeness
import CommandLanguage.Proofs.Eval.CallDepth
import CommandLanguage.Proofs.Brace.Range
import CommandLanguage.Proofs.Brace.Product
import CommandLanguage.Proofs.Pattern.Removal
import CommandLanguage.Proofs.Value.Element
import CommandLanguage.Proofs.Eval.Compound
import CommandLanguage.Proofs.Eval.ElementUpdate
import CommandLanguage.Proofs.Reference.Order
import CommandLanguage.Proofs.Brace.Groups
import CommandLanguage.Proofs.Brace.Search
import CommandLanguage.Proofs.Value.Clearing
import CommandLanguage.Proofs.Regex.Leaves
import CommandLanguage.Proofs.Token.Items
import CommandLanguage.Proofs.Pattern.Replacement
import CommandLanguage.Proofs.Source.Comments
import CommandLanguage.Proofs.Source.Kept
import CommandLanguage.Proofs.Regex.Members
import CommandLanguage.Proofs.Pattern.Members
import CommandLanguage.Proofs.Token.Joined
import CommandLanguage.Proofs.Source.Plain
import CommandLanguage.Proofs.Grammar.Barrier
import CommandLanguage.Proofs.Expr.Branches
import CommandLanguage.Proofs.Session.Counting
import CommandLanguage.Proofs.Text.Split
import CommandLanguage.Proofs.Text.Slice
import CommandLanguage.Proofs.Token.Lookahead
import CommandLanguage.Proofs.Scope.Operation
import CommandLanguage.Proofs.Brace.Calls
import CommandLanguage.Proofs.Grammar.Ending
