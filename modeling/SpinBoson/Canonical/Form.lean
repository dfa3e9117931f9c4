import SpinBoson.Canonical.NormalOrdered
import SpinBoson.Canonical.PauliReduced
import SpinBoson.Canonical.SignatureCheck
import SpinBoson.Canonical.SortedTerms

/-!
The canonical form of all operators in a value: the stages that lead to it, each checked after it
has run, and the check of the whole form.
-/
namespace SpinBoson.Canonical

variable (κ : Type) {ρ α : Type} [RealScalar ρ] [Scalar κ ρ] [OrderKey κ] [Walkable κ α]

open Operator

/-- Checks a value with a rule. -/
def check (s : Strategy) (r : Rule κ (Except Error)) : Pass α :=
  (Pass.ofRule s r).asCheck

/-- Checks that operands act on the same subsystems, the right operand before the left one. -/
def checkSignatures : Pass α :=
  (Pass.ofNotingRule none (.inOrder true)
    (signatureCheck : Rule κ (Noting (Option Signature)))).asCheck

/-- The check of every property of the canonical form. -/
def verification : Pass α :=
  .chain "verify canonical form"
    [check κ .post distributedCheck,
     check κ .post gatheredCheck,
     checkSignatures κ,
     check κ .post pauliCheck,
     check κ .post gatheredQubitsCheck,
     check κ .post normalOrderCheck,
     check κ .post prunedCheck,
     check κ .pre scaledTermsCheck,
     check κ .pre sortedTermsCheck,
     check κ .post properOrderCheck]

/-- The way to the canonical form. -/
def canonicalization (s : Settings ρ) : Pass α :=
  let once (strategy : Strategy) (r : Rule κ (Except Error)) : Pass α := .ofRule strategy r
  let repeated (pass : Pass α) : Pass α := .fixedPoint s.maxIterations pass
  .chain "analog operator canonicalization"
    [repeated (.chain "distribute" [once .post distributeRule, once .post gatherRule]),
     check κ .post distributedCheck,
     check κ .post gatheredCheck,
     checkSignatures κ,
     repeated (.chain "pauli algebra" [once .post pauliRule, once .post gatherRule]),
     check κ .post pauliCheck,
     repeated (once .post gatherQubitsRule),
     check κ .post gatheredQubitsCheck,
     repeated (.chain "normal order"
      [once .post normalOrderRule, once .post distributeRule, once .post gatherRule]),
     check κ .post normalOrderCheck,
     repeated (once .post pruneRule),
     check κ .post prunedCheck,
     repeated (.chain "scale terms" [once .pre scaleTermsRule, once .post gatherRule]),
     check κ .pre scaledTermsCheck,
     check κ .post gatheredCheck,
     repeated (once .pre (sortTermsRule s)),
     check κ .pre sortedTermsCheck,
     once .post (normalizeCoeffRule s),
     verification κ]

/-- Brings every operator in a value into canonical form. -/
def canonicalize [BEq α] (s : Settings ρ) (a : α) : Except Error α :=
  (canonicalization κ s).run a

end SpinBoson.Canonical
