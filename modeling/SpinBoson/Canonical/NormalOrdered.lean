import SpinBoson.Pass

/-!
Products of ladder operators in normal order: creations, identities, annihilations. Swaps are plain
reorderings, without terms for commutators.
-/
namespace SpinBoson

def Ladder.isAfter (l r : Ladder) : Bool :=
  r.rank < l.rank

namespace Operator

variable {κ ρ : Type} [RealScalar ρ] [Scalar κ ρ]

/-- One step at a product: nest it to the left, or swap its last two letters. -/
def normalOrder (a : Operator κ) : Operator κ :=
  match a with
  | mul a (mul x y) => mul (mul a x) y
  | mul (mul p (mode l)) (mode r) =>
    if l.isAfter r then mul (mul p (mode r)) (mode l) else a
  | mul (mode l) (mode r) => if l.isAfter r then mul (mode r) (mode l) else a
  | a => a

/-- Leaves the identity of a mode out of a product. -/
def pruneIdentity : Operator κ → Operator κ
  | mul (mode .identity) b => b
  | mul a (mode .identity) => a
  | a => a

/-- The last factor of a left-nested product. -/
def lastMulFactor : Operator κ → Operator κ
  | mul _ b => b
  | a => a

/-- Where a product is not nested to the left, or a letter follows one of higher rank. -/
def normalOrderViolation? (a : Operator κ) : Option Violation :=
  match a with
  | mul _ (mul _ _) => some (.notLeftNested a.text)
  | mul x (mode r) =>
    match x.lastMulFactor with
    | mode l => if l.isAfter r then some (.notNormalOrdered a.text) else none
    | _ => none
  | _ => none

def hasIdentityFactor : Operator κ → Bool
  | mul (mode .identity) _ | mul _ (mode .identity) => true
  | _ => false

def normalOrderRule : Rule κ (Except Error) :=
  .ofOperator "NormalOrder" fun (a : Operator κ) => .ok a.normalOrder

def pruneRule : Rule κ (Except Error) :=
  .ofOperator "PruneIdentity" fun (a : Operator κ) => .ok a.pruneIdentity

def normalOrderCheck : Rule κ (Except Error) :=
  .ofCheck "VerifyNormalOrder" normalOrderViolation?

def prunedCheck : Rule κ (Except Error) :=
  .ofCheck "VerifyPrunedIdentity" fun a =>
    if a.hasIdentityFactor then some (.identityLeft a.text) else none

end Operator

end SpinBoson
