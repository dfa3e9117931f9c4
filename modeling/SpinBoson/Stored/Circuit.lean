import SpinBoson.Settings
import SpinBoson.Stored.Expression

/-! The stored form of gates, circuits and settings. -/
namespace SpinBoson

namespace Gate

def toJson (g : Gate ComplexDouble) : Json :=
  .obj [("name", .str g.name), ("hamiltonian", g.hamiltonian.toJson),
    ("dissipation", Stored.toJson g.jumps)]

def ofJson? (j : Json) : Option (Gate ComplexDouble) :=
  match j.members? ["name", "hamiltonian", "dissipation"] false with
  | some [some name, some hamiltonian, some jumps] =>
    return ⟨← Stored.ofJson? name, ← Stored.ofJson? hamiltonian, ← Stored.ofJson? jumps⟩
  | _ => none

instance : Stored (Gate ComplexDouble) := ⟨toJson, ofJson?⟩

end Gate

namespace Statement

def toJson : Statement ComplexDouble → Json
  | prepare => .str "Initialize"
  | measure => .str "Measure"
  | evolve gate duration =>
    .obj [("Evolve", .obj [("gate", gate.toJson), ("duration", .float duration)])]

def ofJson? (j : Json) : Option (Statement ComplexDouble) :=
  match j.alternative?, j with
  | some "Initialize", _ => some prepare
  | some "Measure", _ => some measure
  | _, .obj [("Evolve", evolution)] =>
    match evolution.members? ["gate", "duration"] false with
    | some [some gate, some duration] =>
      return evolve (← Stored.ofJson? gate) (← Stored.ofJson? duration)
    | _ => none
  | _, _ => none

instance : Stored (Statement ComplexDouble) := ⟨toJson, ofJson?⟩

end Statement

namespace Circuit

def toJson (c : Circuit ComplexDouble) : Json :=
  .obj [("name", .str c.name), ("statements", Stored.toJson c.statements),
    ("n_qreg", Stored.toJson c.qubits?), ("n_qmode", Stored.toJson c.modes?)]

/-- Dimensions that are missing are unset. -/
def ofJson? (j : Json) : Option (Circuit ComplexDouble) :=
  match j.members? ["name", "statements", "n_qreg", "n_qmode"] false with
  | some [some name, some statements, qubits, modes] =>
    return ⟨← Stored.ofJson? name, ← Stored.ofJson? statements,
      ← Stored.ofJson? (qubits.getD .null), ← Stored.ofJson? (modes.getD .null)⟩
  | _ => none

instance : Stored (Circuit ComplexDouble) := ⟨toJson, ofJson?⟩

end Circuit

/-- The stored value of a field, or its default when it is missing. -/
def Stored.memberOr {α : Type} [Stored α] (fallback : α) : Option Json → Option α
  | some j => ofJson? j
  | none => some fallback

/-- Settings are taken as they are written. -/
instance : Stored (Settings Double) where
  toJson s := .obj [("max_iter", .int s.maxIterations), ("tolerance", Stored.toJson s.tolerance)]
  ofJson? j :=
    let start : Settings Double := {}
    match j.members? ["max_iter", "tolerance"] true with
    | some [n, x] =>
      return ⟨← Stored.memberOr start.maxIterations n, ← Stored.memberOr start.tolerance x⟩
    | _ => none

instance : Stored (TimeSettings Double) where
  toJson s := .obj [("time_symbol", .str s.timeSymbol), ("tolerance", Stored.toJson s.tolerance)]
  ofJson? j :=
    let start : TimeSettings Double := {}
    match j.members? ["time_symbol", "tolerance"] true with
    | some [symbol, x] =>
      return ⟨← Stored.memberOr start.timeSymbol symbol, ← Stored.memberOr start.tolerance x⟩
    | _ => none

end SpinBoson
