import Graft.Building.Builder
import Graft.Building.Expression
import Graft.Building.Program
import Graft.Building.Statement
import Graft.Chance.ChaCha
import Graft.Chance.Stream
import Graft.Control
import Graft.Control.Search
import Graft.Corpus.Basic
import Graft.Corpus.Entry
import Graft.Corpus.Files
import Graft.Corpus.Path
import Graft.Corpus.Settings
import Graft.Mutation.Mutator
import Graft.Mutation.Settings
import Graft.Mutation.Value
import Graft.Pass.Basic
import Graft.Pass.Local
import Graft.Pass.Repair
import Graft.Pass.Structural
import Graft.Printing.Emitter
import Graft.Printing.Layout
import Graft.Printing.Piece
import Graft.Proofs.Building.Order
import Graft.Proofs.Building.Progress
import Graft.Proofs.Building.Refusal
import Graft.Proofs.Building.Resumption
import Graft.Proofs.Chance.Certain
import Graft.Proofs.Control.Search
import Graft.Proofs.Corpus.Cache
import Graft.Proofs.Corpus.Path
import Graft.Proofs.Corpus.Sampling
import Graft.Proofs.Enclosing.Parentheses
import Graft.Proofs.Pass.Coverage
import Graft.Proofs.Pass.Flush
import Graft.Proofs.Pass.Frame
import Graft.Proofs.Pass.Grammar
import Graft.Proofs.Pass.Layers
import Graft.Proofs.Pass.Looks
import Graft.Proofs.Pass.Operators
import Graft.Proofs.Pass.References
import Graft.Proofs.Pass.Requests
import Graft.Proofs.Pass.Turn
import Graft.Proofs.Pass.Visible
import Graft.Proofs.Printing.Numbers
import Graft.Proofs.Printing.SameText
import Graft.Proofs.Printing.Start
import Graft.Proofs.Printing.Text
import Graft.Proofs.Reading.Climbing
import Graft.Proofs.Roundtrip.Mutant
import Graft.Proofs.Roundtrip.Numbers
import Graft.Proofs.Roundtrip.Reread
import Graft.Proofs.Scope.Changes
import Graft.Proofs.Syntax.Listing
import Graft.Proofs.Syntax.NameIndex
import Graft.Proofs.Syntax.Unfolding
import Graft.Proofs.Token.Lossless
import Graft.Proofs.Token.Respaced
import Graft.Reading.Cursor
import Graft.Reading.Expression
import Graft.Reading.Program
import Graft.Reading.Statement
import Graft.Scope.Declarations
import Graft.Scope.Visible
import Graft.SourceError
import Graft.Syntax.Kind
import Graft.Syntax.Listing
import Graft.Syntax.NameIndex
import Graft.Syntax.Names
import Graft.Syntax.Node
import Graft.Syntax.Operator
import Graft.Syntax.Script
import Graft.Syntax.Tree
import Graft.Text.Alphabetic
import Graft.Text.Blank
import Graft.Text.Place
import Graft.Token
import Graft.Token.Scan
import Graft.Control.Search
import Graft.Proofs.Control.Search
