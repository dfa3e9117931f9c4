import SpinBoson.Canonical.Form
import SpinBoson.Circuit.Dimension
import SpinBoson.Walk.Fold

/-! Operators, circuits and observables as lists of terms, the form in which they are simulated. -/
namespace SpinBoson

/-- A tensor chain with its key and its coefficient. -/
structure Term (κ : Type) where
  key : TermKey
  chain : Operator κ
  coeff : Coeff κ
deriving BEq

variable {κ ρ : Type} [RealScalar ρ] [Scalar κ ρ]

/-- A term times a coefficient in front; the coefficient one is not written. -/
def Term.scale (c : Coeff κ) (t : Term κ) : Term κ :=
  { t with coeff := if t.coeff.isLiteral 1 then c else .mul c t.coeff }

/-- The terms at a node from those of its operands. -/
def Operator.termsAt (a : Operator κ) (operands : List (List (Term κ))) :
    Except Error (List (Term κ)) :=
  let unsupported : Error := .unsupportedNode "CollectTerms" a.text
  match a with
  | add _ _ => .ok operands.flatten
  | scale c _ => .ok (operands.flatten.map (Term.scale c))
  | sub _ _ => .error unsupported
  | chain =>
    match chain.termKey? with
    | some key => .ok [⟨key, chain, .lit 1⟩]
    | none => .error unsupported

/-- The terms of a canonical operator, in the order of its sum. -/
def Operator.termList (a : Operator κ) : Except Error (List (Term κ)) :=
  a.foldM termsAt

namespace Circuit

/-- The terms of the Hamiltonians, a list for each evolution. -/
def evolutionTerms (c : Circuit κ) : Except Error (List (List (Term κ))) :=
  c.gates.mapM fun g => g.hamiltonian.termList

variable [OrderKey κ]

/-- Brings all Hamiltonians into canonical form and assigns the dimensions. -/
def compile (s : Settings ρ) (c : Circuit κ) : Except Error (Circuit κ) := do
  (← Canonical.canonicalize κ s c).assignDims

/-- Brings observables into canonical form, checks them and lists their terms. -/
def compileObservables (s : Settings ρ) (c : Circuit κ) (observables : Named (Operator κ)) :
    Except Error (Named (List (Term κ))) := do
  let canonical ← Canonical.canonicalize κ s observables
  c.checkObservables canonical
  canonical.mapM fun (name, a) => return (name, ← a.termList)

end Circuit

end SpinBoson
