import SpinBoson.Proofs.Canonical.Outcome
import SpinBoson.Proofs.Operator.TermSum

/-! The canonical form of an operator denotes the same element. -/
namespace SpinBoson.Canonical

open Operator

variable {κ ρ : Type} [RealScalar ρ] [Scalar κ ρ] [ExactScalar κ] {β : Coeff.Bindings κ}

omit [ExactScalar κ] in
theorem keptByRules_preserves {ι R : Type} [Fintype ι] [CommSemiring R]
    (I : Interpretation κ ι R) : KeptByRules (Preserves I) where
  congruence := preserves_congruence I
  distribute := preserves_distribute
  gatherCoeffs := preserves_gatherCoeffs
  reducePauli := preserves_reducePauli
  gatherQubits := preserves_gatherQubits
  normalOrder := preserves_normalOrder
  pruneIdentity := preserves_pruneIdentity
  scaleTerm := preserves_scaleTerm

variable [OrderKey κ]

theorem canonicalize_preserves {s : Settings ρ} (hs : s.tolerance = 0) {a v : Operator κ}
    (h : canonicalize κ s a = .ok v) : Preserves (.ofBindings β) a v :=
  canonicalize_related (keptByRules_preserves _) (fun _ _ => preserves_sortTerms hs)
    (fun _ _ => preserves_normalizeCoeff hs) h

/-- The canonical form denotes the same element, whatever the cap on repetitions. -/
theorem canonicalize_element {s : Settings ρ} (hs : s.tolerance = 0) {a v : Operator κ}
    {sig : Signature} (hsig : a.signature = .ok sig) (hβ : ∀ c ∈ a.coeffs, c.Defined β)
    (h : canonicalize κ s a = .ok v) :
    (∀ c ∈ v.coeffs, c.Defined β) ∧ v.dims = a.dims ∧ v.element β = a.element β := by
  obtain ⟨hv, hdims, helem⟩ := canonicalize_preserves hs h ⟨(balanced_of_signature hsig).1, hβ⟩
  refine ⟨hv.2, hdims, ?_⟩
  rw [element, ← Interpretation.elementAt_ofBindings, helem, Interpretation.elementAt_ofBindings]

/-- An operator and its canonical form denote the same element. -/
theorem canonicalize_element_unarranged :
    ∃ (s : Settings ClosedReal) (v : Operator ClosedNumber),
      canonicalize ClosedNumber s unarranged = .ok v ∧
        v.element Coeff.noBindings = unarranged.element Coeff.noBindings := by
  obtain ⟨s, hs, hconv⟩ := exists_exact_settings unarranged_readable unarranged_signature
  obtain ⟨v, hv, -⟩ := exists_canonical unarranged_readable unarranged_signature hconv
  have hdefined : ∀ c ∈ unarranged.coeffs, c.Defined Coeff.noBindings := by
    simp [unarranged, coeffs]
  exact ⟨s, v, hv, (canonicalize_element hs unarranged_signature hdefined hv).2.2⟩

end SpinBoson.Canonical
