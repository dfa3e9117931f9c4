import SpinBoson.Operator.Signature
import SpinBoson.Pass

/-!
Products of tensor chains, place by place: Pauli operators are multiplied out, and the qubits of a
chain come before its modes.
-/
namespace SpinBoson

/-- The phases of products of Pauli operators. -/
inductive Phase where
  | one | i | minusI
deriving DecidableEq, Inhabited

/-- The product of two Pauli matrices: a phase and a Pauli matrix. -/
def Pauli.mul : Pauli → Pauli → Phase × Pauli
  | .i, q => (.one, q)
  | p, .i => (.one, p)
  | .x, .x | .y, .y | .z, .z => (.one, .i)
  | .x, .y => (.i, .z)
  | .y, .x => (.minusI, .z)
  | .y, .z => (.i, .x)
  | .z, .y => (.minusI, .x)
  | .z, .x => (.i, .y)
  | .x, .z => (.minusI, .y)

theorem Pauli.mul_self (p : Pauli) : p.mul p = (.one, .i) := by
  cases p <;> rfl

theorem Pauli.mul_i (p : Pauli) : p.mul .i = (.one, p) := by
  cases p <;> rfl

theorem Pauli.i_mul (p : Pauli) : Pauli.mul .i p = (.one, p) := rfl

/-- Two factors in either order give one matrix. -/
theorem Pauli.mul_comm_snd (p q : Pauli) : (p.mul q).2 = (q.mul p).2 := by
  cases p <;> cases q <;> rfl

variable {κ ρ : Type} [RealScalar ρ] [Scalar κ ρ]

def Phase.value : Phase → κ
  | .one => 1
  | .i => Scalar.imag
  | .minusI => -Scalar.imag

namespace Operator

/-- A Pauli operator behind a phase; the phase one is not written. -/
def ofPhase : Phase × Pauli → Operator κ
  | (.one, p) => pauli p
  | (phase, p) => scale (.lit phase.value) (pauli p)

def isOnSameSubsystems (a b : Operator κ) : Bool :=
  match a.signature, b.signature with
  | .ok s, .ok t => s = t
  | _, _ => false

/--
The product of two tensor chains as the chain of the products at each place. It exists when the
chains have equally many factors, at least two, and those at one place act on the same subsystems.
-/
def mulPlaces? (a b : Operator κ) : Option (Operator κ) :=
  let places := a.kronFactors.zip b.kronFactors
  if a.kronFactors.length ≠ b.kronFactors.length ∨ places.length < 2 then none
  else if places.all fun (x, y) => isOnSameSubsystems x y then
    kronChain? (places.map fun (x, y) => mul x y)
  else none

/-- One step at a product. -/
def reducePauli (a : Operator κ) : Operator κ :=
  match a with
  | mul (pauli p) (pauli q) => ofPhase (p.mul q)
  | mul x y => (mulPlaces? x y).getD a
  | a => a

/-- One step at a tensor product towards a left-nested chain with its qubits in front. -/
def gatherQubits (a : Operator κ) : Operator κ :=
  match a with
  | kron a (kron x y) => kron (kron a x) y
  | kron (kron x m) b =>
    if b.factorSubsystem? = some .qubit ∧ m.factorSubsystem? = some .mode then kron (kron x b) m
    else a
  | kron m b =>
    if b.factorSubsystem? = some .qubit ∧ m.factorSubsystem? = some .mode then kron b m else a
  | a => a

def isKron : Operator κ → Bool
  | kron _ _ => true
  | _ => false

def isSpin : Operator κ → Bool
  | spin _ => true
  | _ => false

/-- Nothing is left to multiply out. -/
def isPauliReduced : Operator κ → Bool
  | spin .raising | spin .lowering => false
  | mul a b => !a.isKron && !a.isSpin && !b.isKron && !b.isSpin
  | _ => true

/-- The last factor of a left-nested tensor chain. -/
def lastKronFactor : Operator κ → Operator κ
  | kron _ b => b
  | a => a

/-- Where a chain is not nested to the left, or a qubit follows a mode. -/
def gatheredQubitsViolation? (a : Operator κ) : Option Violation :=
  match a with
  | kron _ (kron _ _) => some (.notLeftNested a.text)
  | kron x b =>
    if x.lastKronFactor.factorSubsystem? = some .mode ∧ b.factorSubsystem? = some .qubit then
      some (.qubitAfterMode a.text)
    else none
  | _ => none

def pauliRule : Rule κ (Except Error) :=
  .ofOperator "PauliAlgebra" fun (a : Operator κ) => .ok a.reducePauli

def gatherQubitsRule : Rule κ (Except Error) :=
  .ofOperator "GatherPauli" fun (a : Operator κ) => .ok a.gatherQubits

def pauliCheck : Rule κ (Except Error) :=
  .ofCheck "VerifyPauliAlgebra" fun a =>
    if a.isPauliReduced then none else some (.notReduced a.text)

def gatheredQubitsCheck : Rule κ (Except Error) :=
  .ofCheck "VerifyGatherPauli" gatheredQubitsViolation?

end Operator

end SpinBoson
