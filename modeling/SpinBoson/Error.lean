import SpinBoson.Coeff.Parser
import SpinBoson.Subsystem

/-! What can go wrong, by cause, and how it is reported. -/
namespace SpinBoson

inductive EvaluationError where
  | unbound (name : String)
  /-- The text is that of the quotient or power. -/
  | divisionByZero (text : String)
  | malformed (cause : ParseError)
deriving DecidableEq

def EvaluationError.message : EvaluationError → String
  | unbound name => s!"Variable '{name}' is unbound"
  | divisionByZero text => s!"Division by zero in '{text}'"
  | malformed cause => s!"Malformed expression: {cause.message}"

/-- How a value falls short of a stage of the canonical form; texts are those of the place. -/
inductive Violation where
  | notDistributed (text : String)
  | coefficientNotGathered (text : String)
  | notReduced (text : String)
  | notLeftNested (text : String)
  | qubitAfterMode (text : String)
  | notNormalOrdered (text : String)
  | identityLeft (text : String)
  | unscaledTerm (text : String)
  | termWithoutKey (text : String)
  | termOutOfOrder (text : String)
  | operandsNotSorted (text : String)
deriving DecidableEq

def Violation.message : Violation → String
  | notDistributed text => s!"{text} is not distributed"
  | coefficientNotGathered text => s!"coefficient not gathered in {text}"
  | notReduced text => s!"{text} is not reduced"
  | notLeftNested text => s!"{text} is not left-nested"
  | qubitAfterMode text => s!"qubit factor after mode factor in {text}"
  | notNormalOrdered text => s!"{text} is not normal-ordered"
  | identityLeft text => s!"identity left in {text}"
  | unscaledTerm text => s!"unscaled term {text}"
  | termWithoutKey text => s!"term {text} has no key"
  | termOutOfOrder text => s!"term {text} is out of order"
  | operandsNotSorted text => s!"operands of {text} are not sorted"

inductive Error where
  | dimensionMismatch (left right : Signature)
  | unsupportedNode (rule text : String)
  | verificationFailed (rule : String) (violation : Violation)
  | inconsistentGate (gate : String) (found assigned : Dims)
  | observableMismatch (name : String) (found assigned : Dims)
  | unassignedDims (circuit : String)
  | evaluation (cause : EvaluationError)
deriving DecidableEq

namespace Error

/-- Text that cannot be read is an error of evaluation. -/
def ofParse (cause : ParseError) : Error :=
  evaluation (.malformed cause)

/-- The found dimensions beside those of the circuit. -/
def comparison (found assigned : Dims) : String :=
  s!"spans {found.qubits} qubit(s) and {found.modes} mode(s), " ++
    s!"circuit has {assigned.qubits} and {assigned.modes}"

def message : Error → String
  | dimensionMismatch left right =>
    s!"Hilbert space dimension mismatch: {left.text} vs {right.text}"
  | unsupportedNode rule text => s!"Rule '{rule}' does not support node {text}"
  | verificationFailed rule violation => s!"Verification '{rule}' failed: {violation.message}"
  | inconsistentGate gate found assigned => s!"Gate '{gate}' {comparison found assigned}"
  | observableMismatch name found assigned => s!"Observable '{name}' {comparison found assigned}"
  | unassignedDims circuit => s!"Circuit '{circuit}' has no assigned dimensions"
  | evaluation cause => s!"Evaluation error: {cause.message}"

/-- Whether the value that was handed in is at fault. -/
def isMalformedInput : Error → Bool
  | verificationFailed .. | evaluation _ => false
  | _ => true

/-- Whether a stage left a value that the next cannot take. -/
def isInternal : Error → Bool
  | verificationFailed .. => true
  | _ => false

end Error

end SpinBoson
