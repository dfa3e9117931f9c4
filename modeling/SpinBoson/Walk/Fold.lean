import SpinBoson.Operator.Basic

/-! Results for whole trees, made node by node from the results of the operands. -/
namespace SpinBoson

variable {κ β : Type} {m : Type → Type} [Monad m]

/-- The result at a node follows those of its operands, which are made from left to right. -/
def Coeff.foldM (f : Coeff κ → List β → m β) : Coeff κ → m β
  | lit z => f (lit z) []
  | var name => f (var name) []
  | raw text => f (raw text) []
  | neg e => do f (neg e) [← e.foldM f]
  | bin op a b => do f (bin op a b) [← a.foldM f, ← b.foldM f]
  | app g e => do f (app g e) [← e.foldM f]

/-- The coefficient of a scaled operator is no operand. -/
def Operator.foldM (f : Operator κ → List β → m β) : Operator κ → m β
  | spin s => f (spin s) []
  | mode l => f (mode l) []
  | bin op a b => do f (bin op a b) [← a.foldM f, ← b.foldM f]
  | scale c a => do f (scale c a) [← a.foldM f]

end SpinBoson
