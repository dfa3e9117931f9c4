import SpinBoson.Decimal.Shortest
import SpinBoson.Operator.Basic

/-! Gates and circuits of analog evolution. -/
namespace SpinBoson

/-- Evolution under a Hamiltonian, with the operators by which the system jumps. -/
structure Gate (κ : Type) where
  name : String
  hamiltonian : Operator κ
  jumps : List (Operator κ)
deriving BEq, Inhabited

inductive Statement (κ : Type) where
  /-- Prepares the initial state. -/
  | prepare
  | evolve (gate : Gate κ) (duration : Float)
  | measure
deriving BEq, Inhabited

structure Circuit (κ : Type) where
  name : String
  statements : List (Statement κ)
  qubits? : Option Nat
  modes? : Option Nat
deriving BEq, Inhabited

/-- Why a gate or a statement cannot be built. -/
inductive BuildError where
  | invalidDuration (gate : String) (duration : Float)
  | emptyGateName

def BuildError.message : BuildError → String
  | invalidDuration gate duration =>
    s!"Invalid duration {floatText duration} for gate '{gate}'"
  | emptyGateName => "Gate name must not be empty"

variable {κ : Type}

/-- A gate without jumps. -/
def Gate.ofHamiltonian (name : String) (hamiltonian : Operator κ) : Except BuildError (Gate κ) :=
  if name = "" then .error .emptyGateName else .ok ⟨name, hamiltonian, []⟩

def Gate.withJump (g : Gate κ) (jump : Operator κ) : Gate κ :=
  { g with jumps := g.jumps ++ [jump] }

def Statement.gate? : Statement κ → Option (Gate κ)
  | evolve gate _ => some gate
  | _ => none

namespace Circuit

def empty (name : String) : Circuit κ :=
  ⟨name, [], none, none⟩

def push (c : Circuit κ) (s : Statement κ) : Circuit κ :=
  { c with statements := c.statements ++ [s] }

/-- Appends an evolution; its duration is finite and not negative. -/
def evolve (c : Circuit κ) (gate : Gate κ) (duration : Float) : Except BuildError (Circuit κ) :=
  if !duration.isFinite || duration < 0 then .error (.invalidDuration gate.name duration)
  else .ok (c.push (.evolve gate duration))

def gates (c : Circuit κ) : List (Gate κ) :=
  c.statements.filterMap Statement.gate?

/-- The dimensions, once both are assigned. -/
def dims? (c : Circuit κ) : Option Dims := do
  return ⟨← c.qubits?, ← c.modes?⟩

def withDims (c : Circuit κ) (d : Dims) : Circuit κ :=
  { c with qubits? := some d.qubits, modes? := some d.modes }

end Circuit

end SpinBoson
