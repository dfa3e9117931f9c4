import SpinBoson.Scalar.Basic

/-! Settings of the normal forms. -/
namespace SpinBoson

variable {ρ : Type} [RealScalar ρ]

/-- The magnitude up to which a coefficient counts as zero unless something else is set. -/
def defaultTolerance : ρ :=
  RealScalar.ofDecimal ⟨1, -12⟩

structure Settings (ρ : Type) [RealScalar ρ] where
  /-- How often each repetition may run. -/
  maxIterations : Nat := 1000
  tolerance : ρ := defaultTolerance

namespace Settings

def withMaxIterations (s : Settings ρ) (n : Nat) : Settings ρ :=
  { s with maxIterations := max n 1 }

def withTolerance (s : Settings ρ) (x : ρ) : Settings ρ :=
  { s with tolerance := RealScalar.abs x }

end Settings

/-- Settings of the text of a coefficient as a function of time. -/
structure TimeSettings (ρ : Type) [RealScalar ρ] where
  /-- The only variable that may stay free. -/
  timeSymbol : String := "t"
  tolerance : ρ := defaultTolerance

end SpinBoson
