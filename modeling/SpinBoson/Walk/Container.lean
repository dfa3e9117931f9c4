import SpinBoson.Walk.Expression

/-!
Walks over lists, named values, gates, statements and circuits. A list has no node of its own, but
it counts as a level; a name before a value does not.
-/
namespace SpinBoson

variable {κ α : Type} {m : Type → Type} [Monad m]

def tallest (height : α → Nat) (as : List α) : Nat :=
  as.foldl (fun n a => max n (height a)) 0

instance [Walkable κ α] : Walkable κ (List α) where
  height as := tallest (Walkable.height κ) as + 1
  up r as := as.mapM (Walkable.up r)
  down r turn
    | 0, as => pure as
    | n + 1, as => as.mapM (Walkable.down r turn n)
  atDepth r
    | 0, as => pure as
    | d + 1, as => as.mapM (Walkable.atDepth r d)

instance [Walkable κ α] : Walkable κ (String × α) where
  height a := Walkable.height κ a.2
  up r a := return (a.1, ← Walkable.up r a.2)
  down r turn n a := return (a.1, ← Walkable.down r turn n a.2)
  atDepth r d a := return (a.1, ← Walkable.atDepth r d a.2)

namespace Gate

/-- Jumps are no part of what is walked. -/
def mapHamiltonian (f : Operator κ → m (Operator κ)) (g : Gate κ) : m (Gate κ) :=
  return { g with hamiltonian := ← f g.hamiltonian }

instance : Walkable κ (Gate κ) where
  height g := g.hamiltonian.height + 1
  up r g := do r.gate (← g.mapHamiltonian (Operator.up r))
  down r turn
    | 0, g => pure g
    | n + 1, g => do (← r.gate g).mapHamiltonian (Operator.down r turn n)
  atDepth r
    | 0, g => r.gate g
    | d + 1, g => g.mapHamiltonian (Operator.atDepth r d)

end Gate

namespace Statement

def mapGate (f : Gate κ → m (Gate κ)) : Statement κ → m (Statement κ)
  | evolve gate duration => return evolve (← f gate) duration
  | s => pure s

instance : Walkable κ (Statement κ) where
  height
    | evolve gate _ => Walkable.height κ gate + 1
    | _ => 1
  up r s := do r.statement (← s.mapGate (Walkable.up r))
  down r turn
    | 0, s => pure s
    | n + 1, s => do (← r.statement s).mapGate (Walkable.down r turn n)
  atDepth r
    | 0, s => r.statement s
    | d + 1, s => s.mapGate (Walkable.atDepth r d)

end Statement

namespace Circuit

def mapStatements (f : List (Statement κ) → m (List (Statement κ))) (c : Circuit κ) :
    m (Circuit κ) :=
  return { c with statements := ← f c.statements }

instance : Walkable κ (Circuit κ) where
  height c := Walkable.height κ c.statements + 1
  up r c := do r.circuit (← c.mapStatements (Walkable.up r))
  down r turn
    | 0, c => pure c
    | n + 1, c => do (← r.circuit c).mapStatements (Walkable.down r turn n)
  atDepth r
    | 0, c => r.circuit c
    | d + 1, c => c.mapStatements (Walkable.atDepth r d)

end Circuit

end SpinBoson
