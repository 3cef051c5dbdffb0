import ComplexFormula.Text.Identifier
import ComplexFormula.Text.Search
import ComplexFormula.Text.Utf8
import ComplexFormula.Binary64.Hypot
import ComplexFormula.Decimal.Notation
import ComplexFormula.Decimal.Read
import ComplexFormula.Tree.Render
import ComplexFormula.Tree.Fold
import ComplexFormula.Constants
import ComplexFormula.Literal
import ComplexFormula.Occurrence
import ComplexFormula.Normalize
import ComplexFormula.Resolve.Leaf
import ComplexFormula.Resolve.Expression
import ComplexFormula.Resolve.Bytes
import ComplexFormula.Session
import ComplexFormula.Report
import ComplexFormula.Proofs.Characters
import ComplexFormula.Proofs.Numerals
import ComplexFormula.Proofs.Occurrences
import ComplexFormula.Proofs.Formula
import ComplexFormula.Proofs.Leaves
import ComplexFormula.Proofs.Splitting
import ComplexFormula.Proofs.Chains
import ComplexFormula.Proofs.Powers
import ComplexFormula.Proofs.Precedence
import ComplexFormula.Proofs.PowerOperands
import ComplexFormula.Proofs.Writing
import ComplexFormula.Proofs.Registry
import ComplexFormula.Proofs.Ledger
import ComplexFormula.Proofs.Placeholders
import ComplexFormula.Proofs.Indexing
import ComplexFormula.Proofs.Bindings
import ComplexFormula.Proofs.ReadingBack
import ComplexFormula.Proofs.Pieces
import ComplexFormula.Proofs.Renumbering
import ComplexFormula.Proofs.Brackets
import ComplexFormula.Proofs.Cuts
import ComplexFormula.Proofs.Utf8
import ComplexFormula.Proofs.ByteScans
import ComplexFormula.Proofs.Reordering
import ComplexFormula.Proofs.ByteSearch
import ComplexFormula.Proofs.Trading
import ComplexFormula.Proofs.Groups
import ComplexFormula.Proofs.Juxtaposition
import ComplexFormula.Proofs.Folding
import ComplexFormula.Proofs.LeafNumbering
import ComplexFormula.Proofs.LongestLiteral
import ComplexFormula.Proofs.WordModel
import ComplexFormula.Proofs.NeutralOperands
import ComplexFormula.Proofs.FoldedValues
import ComplexFormula.Proofs.UnmentionedNames
