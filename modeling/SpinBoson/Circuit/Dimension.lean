import SpinBoson.Operator.Signature
import SpinBoson.Pass

/-!
The dimensions of circuits. They are those of the first term of the first gate; all other terms, and
the observables of the circuit, have to agree with them.
-/
namespace SpinBoson

variable {κ : Type}

/-- The dimensions of the terms of an operator, left to right. -/
def Operator.termDims (a : Operator κ) : List (Except Error Dims) :=
  a.terms.map fun t => Signature.dims <$> t.signature

/-- Fails at the first term whose dimensions differ from those expected. -/
def Operator.checkDims (expected : Dims) (mismatch : Dims → Error) (a : Operator κ) :
    Except Error Unit :=
  a.termDims.forM fun dims => do
    let found ← dims
    if found = expected then return () else throw (mismatch found)

namespace Circuit

/-- Notes the dimensions of the first gate and writes them into the circuit around it. -/
def assignDimsRule : Rule κ (Noting (Option Dims)) :=
  { Rule.idle "AssignAnalogCircuitDim" with
    gate := fun g => do
      match ← get, g.hamiltonian.termDims with
      | none, .ok dims :: _ =>
        set (some dims)
        return g
      | none, .error e :: _ => throw e
      | _, _ => return g
    circuit := fun c => do
      let dims := (← get).getD ⟨0, 0⟩
      set (none : Option Dims)
      return c.withDims dims }

/-- Checks gates against the circuit around them, if that has dimensions. -/
def dimsCheck : Rule κ (Noting (Option Dims)) :=
  { Rule.idle "VerifyAnalogCircuitDim" with
    circuit := fun c => do
      set c.dims?
      return c
    gate := fun g => do
      match ← get with
      | none => return g
      | some dims =>
        match g.hamiltonian.checkDims dims (.inconsistentGate g.name · dims) with
        | .ok () => return g
        | .error e => throw e
    descends := fun _ => false }

/-- Checks an operator as a whole against the dimensions of a circuit. -/
def observableCheck (name : String) (dims : Dims) : Rule κ (Except Error) :=
  let r : Rule κ (Except Error) := Rule.ofOperator "VerifyAnalogArgsDim" fun a => do
    a.checkDims dims (.observableMismatch name · dims)
    return a
  r.descending fun _ => false

variable (κ) in
/-- Assigns dimensions and checks them. -/
def dimensionPass : Pass (Circuit κ) :=
  let assign : Rule κ _ := assignDimsRule
  let check : Rule κ _ := dimsCheck
  .chain "analog circuit dimensions"
    [.ofNotingRule none .post assign, (Pass.ofNotingRule none .pre check).asCheck]

def assignDims [BEq κ] (c : Circuit κ) : Except Error (Circuit κ) :=
  (dimensionPass κ).run c

/-- Checks named observables, in order of names. -/
def checkObservables (c : Circuit κ) (observables : Named (Operator κ)) : Except Error Unit :=
  match c.dims? with
  | none => .error (.unassignedDims c.name)
  | some dims => observables.forM fun (name, a) => do
    discard (walk .pre (observableCheck name dims : Rule κ (Except Error)) a)

end Circuit

end SpinBoson
