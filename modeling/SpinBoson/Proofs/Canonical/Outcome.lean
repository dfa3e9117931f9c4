import SpinBoson.Proofs.Canonical.Convergence
import SpinBoson.Proofs.Canonical.Readable
import SpinBoson.Proofs.ClosedForms

/-!
What canonicalization returns once all its repetitions end by themselves: a canonical form for the
operators that have a signature, and for canonical forms the form itself.
-/
namespace SpinBoson.Canonical

open Filter Operator Pass

variable {κ ρ : Type} [RealScalar ρ] [Scalar κ ρ] [OrderKey κ] [LawfulTest κ] [LawfulOrderKey κ]
  {s : Settings ρ} {a v : Operator κ}

/--
With readable coefficients and repetitions that end by themselves, exactly the operators with a
signature have a canonical form. All others are refused for the dimensions of some operands.
-/
theorem canonicalize_succeeds_iff (hread : ∀ c ∈ a.coeffs, c.Readable) (hconv : Converges s a) :
    ((∃ v, canonicalize κ s a = .ok v) ↔ ∃ sig, a.signature = .ok sig) ∧
      (∀ e, canonicalize κ s a = .error e → ∃ l r, e = .dimensionMismatch l r) ∧
      ∀ v sig, canonicalize κ s a = .ok v → a.signature = .ok sig →
        IsCanonical s.tolerance sig v ∧ v.signature = .ok (qubitsThenModes sig) := by
  cases hsig : a.signature with
  | ok sig =>
    obtain ⟨v, hv, hsettled⟩ := exists_canonical hread hsig hconv
    have hcanonical := isCanonical_iff.mpr
      ⟨fun c hc => (hsettled.stable c hc).normal, hsettled.increasing⟩
    refine ⟨⟨fun _ => ⟨sig, rfl⟩, fun _ => ⟨v, hv⟩⟩, ?_, ?_⟩
    · intro e he
      cases hv.symm.trans he
    · intro v' sig' hv' hsig'
      cases hv.symm.trans hv'
      cases hsig'
      exact ⟨hcanonical, signature_of_increasing hsettled.increasing⟩
  | error e =>
    obtain ⟨l, r, hrun⟩ := exists_mismatch hread hsig hconv
    refine ⟨⟨?_, ?_⟩, ?_, ?_⟩
    · rintro ⟨v, hv⟩
      cases hrun.symm.trans hv
    · rintro ⟨sig, hsig'⟩
      cases hsig'
    · intro e' he
      cases hrun.symm.trans he
      exact ⟨l, r, rfl⟩
    · intro v sig hv _
      cases hrun.symm.trans hv

/-- A mode beside a product of two Pauli operators with a number in front. -/
noncomputable def unarranged : Operator ClosedNumber :=
  kron (mode .creation) (scale (.lit 1) (mul (spin (.pauli .x)) (spin (.pauli .y))))

theorem unarranged_signature : unarranged.signature = .ok [.mode, .qubit] :=
  rfl

theorem unarranged_readable : ∀ c ∈ unarranged.coeffs, c.Readable := by
  simp [unarranged, coeffs, Coeff.readable_lit]

/-- The mode and the product have a canonical form together. -/
theorem canonicalize_succeeds_unarranged :
    ∃ (s : Settings ClosedReal) (v : Operator ClosedNumber), Converges s unarranged ∧
      canonicalize ClosedNumber s unarranged = .ok v ∧
      IsCanonical s.tolerance [.mode, .qubit] v ∧ v.signature = .ok [.qubit, .mode] := by
  obtain ⟨s, -, hconv⟩ := exists_exact_settings unarranged_readable unarranged_signature
  obtain ⟨hiff, -, hform⟩ := canonicalize_succeeds_iff unarranged_readable hconv
  obtain ⟨v, hv⟩ := hiff.mpr ⟨_, unarranged_signature⟩
  exact ⟨s, v, hconv, hv, hform v _ hv unarranged_signature⟩

/--
With every cap that is large enough an operator with a signature and readable coefficients has a
canonical form, over exact scalars.
-/
theorem canonicalize_succeeds_eventually {κ ρ : Type} [RealScalar ρ] [Scalar κ ρ] [OrderKey κ]
    [ExactScalar κ] (s : Settings ρ) {a : Operator κ} {sig : Signature}
    (hread : ∀ c ∈ a.coeffs, c.Readable) (hsig : a.signature = .ok sig) :
    ∀ᶠ cap in atTop, ∃ v, canonicalize κ (s.capped cap) a = .ok v := by
  filter_upwards [exists_converges s hread hsig] with cap hconv
  obtain ⟨v, hv, -⟩ := exists_canonical hread hsig hconv
  exact ⟨v, hv⟩

/-- The mode and the product have a canonical form for some cap. -/
theorem canonicalize_succeeds_capped :
    ∃ cap v, canonicalize ClosedNumber ((⟨0, 0⟩ : Settings ClosedReal).capped cap) unarranged =
      .ok v :=
  (canonicalize_succeeds_eventually ⟨0, 0⟩ unarranged_readable unarranged_signature).exists

/-- With a cap that is too small a check refuses what is left, although the signatures agree. -/
theorem canonicalize_fails_capped :
    canonicalize ComplexDouble ({ maxIterations := 1 } : Settings Double)
      (mul (add (spin (.pauli .x)) (spin (.pauli .y)))
        (add (spin (.pauli .x)) (spin (.pauli .y))) : Operator ComplexDouble) =
      .error (.verificationFailed "VerifyDistributed" (.notDistributed "(X * (X + Y))")) :=
  rfl

/-- What a run that settles returns is settled itself. -/
theorem exists_settled_of_canonicalize (hconv : Converges s a) (h : canonicalize κ s a = .ok v) :
    ∃ sig, IsSettled s sig v := by
  have hread := readable_of_canonicalize h
  cases hsig : a.signature with
  | ok sig =>
    obtain ⟨w, hw, hsettled⟩ := exists_canonical hread hsig hconv
    obtain rfl : w = v := Except.ok.inj (hw.symm.trans h)
    exact ⟨sig, hsettled⟩
  | error e =>
    obtain ⟨l, r, herror⟩ := exists_mismatch hread hsig hconv
    cases herror.symm.trans h

/-- Canonicalization leaves its own results alone. -/
theorem canonicalize_idempotent (hconv : Converges s a) (h : canonicalize κ s a = .ok v) :
    canonicalize κ s v = .ok v := by
  obtain ⟨sig, hsettled⟩ := exists_settled_of_canonicalize hconv h
  exact (leaveAlone_all (leavesAlone_settled hsettled)).1

/-- The canonical form of the mode and the product is left alone. -/
theorem canonicalize_idempotent_unarranged :
    ∃ (s : Settings ClosedReal) (v : Operator ClosedNumber), Converges s unarranged ∧
      canonicalize ClosedNumber s unarranged = .ok v ∧ canonicalize ClosedNumber s v = .ok v := by
  obtain ⟨s, -, hconv⟩ := exists_exact_settings unarranged_readable unarranged_signature
  obtain ⟨v, hv, -⟩ := exists_canonical unarranged_readable unarranged_signature hconv
  exact ⟨s, v, hconv, hv, canonicalize_idempotent hconv hv⟩

end SpinBoson.Canonical
