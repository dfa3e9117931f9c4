import SpinBoson.Canonical.Distributed
import SpinBoson.Canonical.Form
import SpinBoson.Canonical.NormalOrdered
import SpinBoson.Canonical.PauliReduced
import SpinBoson.Canonical.SignatureCheck
import SpinBoson.Canonical.SortedTerms
import SpinBoson.Circuit.Basic
import SpinBoson.Circuit.Dimension
import SpinBoson.Circuit.Terms
import SpinBoson.Coeff.Basic
import SpinBoson.Coeff.Key
import SpinBoson.Coeff.LikeTerms
import SpinBoson.Coeff.Normal
import SpinBoson.Coeff.Parser
import SpinBoson.Coeff.TimeText
import SpinBoson.Coeff.Token
import SpinBoson.Coeff.Value
import SpinBoson.Decimal.Basic
import SpinBoson.Decimal.Hypot
import SpinBoson.Decimal.Numeral
import SpinBoson.Decimal.Shortest
import SpinBoson.Digest
import SpinBoson.Error
import SpinBoson.Json.Basic
import SpinBoson.Json.Number
import SpinBoson.Json.Printer
import SpinBoson.Json.Reader
import SpinBoson.LeftNested
import SpinBoson.Named
import SpinBoson.Operator.Basic
import SpinBoson.Operator.Signature
import SpinBoson.Operator.TermKey
import SpinBoson.Pass
import SpinBoson.Scalar.Basic
import SpinBoson.Scalar.Complex
import SpinBoson.Scalar.Double
import SpinBoson.Scalar.Elementary
import SpinBoson.Settings
import SpinBoson.Stored.Basic
import SpinBoson.Stored.Circuit
import SpinBoson.Stored.Expression
import SpinBoson.Subsystem
import SpinBoson.Walk.Container
import SpinBoson.Walk.Expression
import SpinBoson.Walk.Fold
import SpinBoson.Walk.Json
import SpinBoson.Walk.Rule
import SpinBoson.Proofs.Canonical.Acceptance
import SpinBoson.Proofs.Canonical.Completion
import SpinBoson.Proofs.Canonical.Containers
import SpinBoson.Proofs.Canonical.Convergence
import SpinBoson.Proofs.Canonical.Fixed
import SpinBoson.Proofs.Canonical.Meaning
import SpinBoson.Proofs.Canonical.MergedSums
import SpinBoson.Proofs.Canonical.Outcome
import SpinBoson.Proofs.Canonical.PauliProducts
import SpinBoson.Proofs.Canonical.QubitsInFront
import SpinBoson.Proofs.Canonical.Readable
import SpinBoson.Proofs.Canonical.Recognition
import SpinBoson.Proofs.Canonical.Respect
import SpinBoson.Proofs.Canonical.Respelling
import SpinBoson.Proofs.Canonical.Rest
import SpinBoson.Proofs.Canonical.Stages
import SpinBoson.Proofs.Canonical.Success
import SpinBoson.Proofs.Canonical.Uniqueness
import SpinBoson.Proofs.Canonical.Values
import SpinBoson.Proofs.Canonical.Verified
import SpinBoson.Proofs.Canonical.WordOrder
import SpinBoson.Proofs.Circuit.Combinations
import SpinBoson.Proofs.Circuit.Compilation
import SpinBoson.Proofs.Circuit.Dimensions
import SpinBoson.Proofs.Circuit.Extraction
import SpinBoson.Proofs.Circuit.Observables
import SpinBoson.Proofs.ClosedForms
import SpinBoson.Proofs.Coeff.Arithmetic
import SpinBoson.Proofs.Coeff.Closed
import SpinBoson.Proofs.Coeff.Collect
import SpinBoson.Proofs.Coeff.Collected
import SpinBoson.Proofs.Coeff.Evaluation
import SpinBoson.Proofs.Coeff.Grammar
import SpinBoson.Proofs.Coeff.LikeTerms
import SpinBoson.Proofs.Coeff.Meaning
import SpinBoson.Proofs.Coeff.Monomials
import SpinBoson.Proofs.Coeff.Negligible
import SpinBoson.Proofs.Coeff.NormalForm
import SpinBoson.Proofs.Coeff.Order
import SpinBoson.Proofs.Coeff.Parsing
import SpinBoson.Proofs.Coeff.Polynomial
import SpinBoson.Proofs.Coeff.Powers
import SpinBoson.Proofs.Coeff.Reading
import SpinBoson.Proofs.Coeff.Refinement
import SpinBoson.Proofs.Coeff.Rest
import SpinBoson.Proofs.Coeff.RingLaws
import SpinBoson.Proofs.Coeff.RoundTrip
import SpinBoson.Proofs.Coeff.Scanning
import SpinBoson.Proofs.Coeff.Sentences
import SpinBoson.Proofs.Coeff.Shape
import SpinBoson.Proofs.Coeff.Text
import SpinBoson.Proofs.Coeff.TimeText
import SpinBoson.Proofs.Coeff.Uniqueness
import SpinBoson.Proofs.Coeff.Value
import SpinBoson.Proofs.Coeff.Weight
import SpinBoson.Proofs.ComplexDoubles
import SpinBoson.Proofs.ComplexNumbers
import SpinBoson.Proofs.Containers
import SpinBoson.Proofs.Doubles
import SpinBoson.Proofs.ExactScalar
import SpinBoson.Proofs.FirstFixed
import SpinBoson.Proofs.Labels
import SpinBoson.Proofs.Numerals
import SpinBoson.Proofs.Operator.Arrangement
import SpinBoson.Proofs.Operator.Chains
import SpinBoson.Proofs.Operator.ChainKeys
import SpinBoson.Proofs.Operator.Checks
import SpinBoson.Proofs.Operator.Coefficients
import SpinBoson.Proofs.Operator.Denotation
import SpinBoson.Proofs.Operator.Distributed
import SpinBoson.Proofs.Operator.Element
import SpinBoson.Proofs.Operator.Independence
import SpinBoson.Proofs.Operator.Keys
import SpinBoson.Proofs.Operator.PlaceProducts
import SpinBoson.Proofs.Operator.Preservation
import SpinBoson.Proofs.Operator.Reduced
import SpinBoson.Proofs.Operator.Regular
import SpinBoson.Proofs.Operator.Signatures
import SpinBoson.Proofs.Operator.Spelling
import SpinBoson.Proofs.Operator.Sums
import SpinBoson.Proofs.Operator.TermSum
import SpinBoson.Proofs.Operator.TermWalks
import SpinBoson.Proofs.Operator.Terms
import SpinBoson.Proofs.Operator.Weighing
import SpinBoson.Proofs.Operator.Words
import SpinBoson.Proofs.Phases
import SpinBoson.Proofs.Pointwise
import SpinBoson.Proofs.Repetition
import SpinBoson.Proofs.Rest
import SpinBoson.Proofs.Rewriting
import SpinBoson.Proofs.Similarity
import SpinBoson.Proofs.Uncapped
import SpinBoson.Proofs.Walk.NodeTree
import SpinBoson.Proofs.Walk.Visits
import SpinBoson.Proofs.WrittenNumbers
