import SpinBoson.Pass

/-!
Operators as sums of scaled products: differences and the raising and lowering operators are written
out, products distributed over sums, and coefficients moved to the front of their terms.
-/
namespace SpinBoson.Operator

variable {κ ρ : Type} [RealScalar ρ] [Scalar κ ρ]

def isSum : Operator κ → Bool
  | add _ _ => true
  | _ => false

def isScaled : Operator κ → Bool
  | scale _ _ => true
  | _ => false

/-- Half of X and half of Y times a sign and the imaginary unit. -/
def ladderPauli (half : ρ) (signedHalf : ρ) : Operator κ :=
  add (scale (.ofReal half) (pauli .x)) (scale (.lit (Scalar.ofParts 0 signedHalf)) (pauli .y))

/-- The number one half. -/
def half : ρ :=
  RealScalar.ofDecimal ⟨5, -1⟩

/-- A product or tensor product over a sum in one of its operands, the left one first. -/
def overSum (op : Op) : Operator κ → Operator κ → Operator κ
  | add x y, b => add (bin op x b) (bin op y b)
  | a, add x y => add (bin op a x) (bin op a y)
  | a, b => bin op a b

/-- One step at a node towards sums of terms. -/
def distribute : Operator κ → Operator κ
  | spin .raising => ladderPauli half half
  | spin .lowering => ladderPauli half (-half)
  | sub a b => add a (scale (.lit Scalar.minusOne) b)
  | mul a b => overSum .mul a b
  | kron a b => overSum .kron a b
  | scale c (add x y) => add (scale c x) (scale c y)
  | a => a

/-- The product of two coefficients; that of two literals is a literal. -/
def mergeCoeffs : Coeff κ → Coeff κ → Coeff κ
  | .lit x, .lit y => .lit (x * y)
  | c, d => .mul c d

/-- A product or tensor product with the coefficient of an operand, the left one first, in front. -/
def liftScale (op : Op) : Operator κ → Operator κ → Operator κ
  | scale c x, b => scale c (bin op x b)
  | a, scale c y => scale c (bin op a y)
  | a, b => bin op a b

/-- One step at a node towards one coefficient in front of a product. -/
def gatherCoeffs : Operator κ → Operator κ
  | scale c (scale d x) => scale (mergeCoeffs c d) x
  | mul a b => liftScale .mul a b
  | kron a b => liftScale .kron a b
  | a => a

/-- No sum stands below a product or a coefficient, and nothing is left to write out. -/
def isDistributed : Operator κ → Bool
  | sub _ _ | spin .raising | spin .lowering => false
  | mul a b | kron a b => !a.isSum && !b.isSum
  | scale _ a => !a.isSum
  | _ => true

/-- No coefficient stands below a product or a coefficient. -/
def isGathered : Operator κ → Bool
  | scale _ a => !a.isScaled
  | mul a b | kron a b => !a.isScaled && !b.isScaled
  | _ => true

def distributeRule : Rule κ (Except Error) :=
  .ofOperator "OperatorDistribute" fun (a : Operator κ) => .ok a.distribute

def gatherRule : Rule κ (Except Error) :=
  .ofOperator "GatherCoefficients" fun (a : Operator κ) => .ok a.gatherCoeffs

def distributedCheck : Rule κ (Except Error) :=
  .ofCheck "VerifyDistributed" fun a =>
    if a.isDistributed then none else some (.notDistributed a.text)

def gatheredCheck : Rule κ (Except Error) :=
  .ofCheck "VerifyGathered" fun a =>
    if a.isGathered then none else some (.coefficientNotGathered a.text)

end SpinBoson.Operator
