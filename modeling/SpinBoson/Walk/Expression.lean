import SpinBoson.Walk.Rule

/-! Walks over coefficients and operators. -/
namespace SpinBoson

variable {κ : Type} {m : Type → Type} [Monad m]

namespace Coeff

/-- Replaces the operands of a node, left to right. -/
def mapOperands (f : Coeff κ → m (Coeff κ)) : Coeff κ → m (Coeff κ)
  | neg e => return neg (← f e)
  | bin op a b => return bin op (← f a) (← f b)
  | app g e => return app g (← f e)
  | e => pure e

def up (r : Rule κ m) : Coeff κ → m (Coeff κ)
  | lit z => r.coeff (lit z)
  | var name => r.coeff (var name)
  | raw text => r.coeff (raw text)
  | neg e => do r.coeff (neg (← e.up r))
  | bin op a b => do r.coeff (bin op (← a.up r) (← b.up r))
  | app f e => do r.coeff (app f (← e.up r))

/-- A node that has lost its two operands at its turn is not entered any more. -/
def down (r : Rule κ m) (turn : Turn) : Nat → Coeff κ → m (Coeff κ)
  | 0, e => pure e
  | n + 1, e =>
    match turn, e with
    | .afterLeft, bin op a b => do
      let a ← down r turn n a
      match ← r.coeff (bin op a b) with
      | bin op a b => return bin op a (← down r turn n b)
      | e => return e
    | .afterRight, bin op a b => do
      let b ← down r turn n b
      match ← r.coeff (bin op a b) with
      | bin op a b => return bin op (← down r turn n a) b
      | e => return e
    | _, e => do (← r.coeff e).mapOperands (down r turn n)

def atDepth (r : Rule κ m) : Nat → Coeff κ → m (Coeff κ)
  | 0, e => r.coeff e
  | d + 1, e => e.mapOperands (atDepth r d)

instance : Walkable κ (Coeff κ) := ⟨height, up, down, atDepth⟩

end Coeff

namespace Operator

/-- Replaces the operands of a node, left to right; a coefficient comes before its operator. -/
def mapOperands (onCoeff : Coeff κ → m (Coeff κ)) (f : Operator κ → m (Operator κ)) :
    Operator κ → m (Operator κ)
  | bin op a b => return bin op (← f a) (← f b)
  | scale c a => return scale (← onCoeff c) (← f a)
  | a => pure a

def up (r : Rule κ m) : Operator κ → m (Operator κ)
  | spin s => r.operator (spin s)
  | mode l => r.operator (mode l)
  | bin op a b => do r.operator (bin op (← a.up r) (← b.up r))
  | scale c a => do r.operator (scale (← c.up r) (← a.up r))

/-- A node that has lost its two operands at its turn is not entered any more. -/
def down (r : Rule κ m) (turn : Turn) : Nat → Operator κ → m (Operator κ)
  | 0, a => pure a
  | n + 1, a =>
    match turn, a with
    | .afterLeft, bin op a b => do
      let a ← down r turn n a
      match ← r.operator (bin op a b) with
      | bin op a b => return bin op a (← down r turn n b)
      | a => return a
    | .afterRight, bin op a b => do
      let b ← down r turn n b
      match ← r.operator (bin op a b) with
      | bin op a b => return bin op (← down r turn n a) b
      | a => return a
    | _, a => do
      let a ← r.operator a
      if r.descends a then a.mapOperands (Coeff.down r turn n) (down r turn n) else return a

def atDepth (r : Rule κ m) : Nat → Operator κ → m (Operator κ)
  | 0, a => r.operator a
  | d + 1, a => a.mapOperands (Coeff.atDepth r d) (atDepth r d)

instance : Walkable κ (Operator κ) := ⟨height, up, down, atDepth⟩

end Operator

end SpinBoson
