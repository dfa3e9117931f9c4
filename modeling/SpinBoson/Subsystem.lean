/-! The subsystems that an operator acts on, in tensor order. -/
namespace SpinBoson

inductive Subsystem where
  /-- A two-level system. -/
  | qubit
  /-- A harmonic oscillator. -/
  | mode
deriving DecidableEq, Inhabited

abbrev Signature := List Subsystem

/-- How many qubits and modes there are. -/
structure Dims where
  qubits : Nat
  modes : Nat
deriving DecidableEq, Inhabited

def Subsystem.name : Subsystem → String
  | qubit => "qubit"
  | mode => "mode"

namespace Signature

def text (s : Signature) : String :=
  "[" ++ ", ".intercalate (s.map Subsystem.name) ++ "]"

def dims (s : Signature) : Dims :=
  ⟨s.count .qubit, s.count .mode⟩

theorem dims_append (s t : Signature) :
    dims (s ++ t) = ⟨s.dims.qubits + t.dims.qubits, s.dims.modes + t.dims.modes⟩ := by
  simp [dims]

end Signature

end SpinBoson
