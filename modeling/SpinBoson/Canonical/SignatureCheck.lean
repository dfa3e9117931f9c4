import SpinBoson.Operator.Signature
import SpinBoson.Pass

/-! The check that sums and products combine operators on the same subsystems. -/
namespace SpinBoson.Operator

variable {κ : Type}

/-- Checks the operands of a node; the last signature that was found stays known. -/
def signatureCheck : Rule κ (Noting (Option Signature)) :=
  .ofOperator "VerifyHilbertSpaceDim" fun (a : Operator κ) =>
    match a with
    | bin _ _ _ =>
      match a.signature with
      | .ok s => do
        set (some s)
        return a
      | .error e => throw e
    | a => pure a

end SpinBoson.Operator
