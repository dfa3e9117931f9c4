import SpinBoson.Coeff.Normal
import SpinBoson.Coeff.Value

/-! Coefficients as text in which only the time is free. -/
namespace SpinBoson.Coeff

variable {κ ρ : Type} [RealScalar ρ] [Scalar κ ρ]

/-- Puts values in the places of the variables that have one. -/
def substitute (bindings : Bindings κ) : Coeff κ → Coeff κ
  | lit z => lit z
  | var name =>
    match bindings name with
    | some z => lit z
    | none => var name
  | raw text => raw text
  | neg e => neg (e.substitute bindings)
  | bin op a b => bin op (a.substitute bindings) (b.substitute bindings)
  | app f e => app f (e.substitute bindings)

/-- The names of the variables, left to right. -/
def variableNames : Coeff κ → List String
  | lit _ | raw _ => []
  | var name => [name]
  | neg e | app _ e => e.variableNames
  | bin _ a b => a.variableNames ++ b.variableNames

/-- The first of some names in alphabetical order. -/
def leastName? : List String → Option String
  | [] => none
  | name :: rest =>
    match leastName? rest with
    | some least => some (if least < name then least else name)
    | none => some name

/-- The text of the normal form once all values are put in; only the time may be left. -/
def timeText [OrderKey κ] (s : TimeSettings ρ) (bindings : Bindings κ) (e : Coeff κ) :
    Except Error String := do
  let e ← walk .post (readRawRule : Rule κ (Except Error)) e
  let e := e.substitute bindings
  match leastName? (e.variableNames.filter (· ≠ s.timeSymbol)) with
  | some name => throw (.evaluation (.unbound name))
  | none =>
    let settings : Settings ρ := {}
    return (← e.normalize (settings.withTolerance s.tolerance)).text

end SpinBoson.Coeff
