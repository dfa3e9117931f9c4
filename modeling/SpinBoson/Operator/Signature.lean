import SpinBoson.Error
import SpinBoson.Operator.Basic

/-! The subsystems that a whole operator acts on. -/
namespace SpinBoson.Operator

variable {κ : Type}

/-- Sums, differences and products need operands that act on the same subsystems. -/
def signature : Operator κ → Except Error Signature
  | spin _ => .ok [.qubit]
  | mode _ => .ok [.mode]
  | kron a b => do
    let left ← a.signature
    let right ← b.signature
    return left ++ right
  | bin _ a b => do
    let left ← a.signature
    let right ← b.signature
    if left = right then return left else throw (.dimensionMismatch left right)
  | scale _ a => a.signature

/-- The subsystem of a tensor factor, read off its first elementary operator. -/
def factorSubsystem? : Operator κ → Option Subsystem
  | spin _ => some .qubit
  | mode _ => some .mode
  | mul a _ => a.factorSubsystem?
  | scale _ a => a.factorSubsystem?
  | bin _ _ _ => none

end SpinBoson.Operator
