import SpinBoson.Proofs.Coeff.NormalForm
import SpinBoson.Proofs.Coeff.Value

/-! Coefficients without variables: in normal form they are literals. -/
namespace SpinBoson

variable {κ ρ : Type} [RealScalar ρ] [Scalar κ ρ]

instance (priority := low) [ExactRing κ] : LawfulTest κ where
  symm h := ExactRing.beq_iff_eq.mpr (ExactRing.beq_iff_eq.mp h).symm
  trans h h' := ExactRing.beq_iff_eq.mpr
    ((ExactRing.beq_iff_eq.mp h).trans (ExactRing.beq_iff_eq.mp h'))
  one_beq_one := ExactRing.beq_iff_eq.mpr rfl

instance (priority := low) [ExactRing κ] : LawfulMagnitude κ where
  magnitude_congr h := congrArg _ (ExactRing.beq_iff_eq.mp h)

instance (priority := low) [ExactRing κ] [OrderKey κ] : LawfulOrderKey κ where
  key_congr h := by rw [eq_of_beq h]

namespace Coeff

/-- No variable has a value. -/
def noBindings : Bindings κ :=
  fun _ => none

/-- What has a value without bindings has no variables, and its text can be read. -/
theorem Defined.readable {β : Bindings κ} {e : Coeff κ} (h : e.Defined β) : e.Readable := by
  induction e with
  | lit z => exact (textFree_lit z).readable
  | var name => intro text heq; cases heq
  | raw text =>
    rintro text' ⟨⟩
    obtain ⟨z, hz⟩ := h
    cases hparse : (parse text : Except ParseError (Coeff κ)) with
    | ok e => exact ⟨e, rfl⟩
    | error cause =>
      have hvalue : (raw text).value β = .error (.malformed cause) := by
        simp only [value, valueWith, textValue, hparse]
      cases hvalue.symm.trans hz
  | neg e ih => exact ⟨by simp, ih (defined_neg.mp h)⟩
  | app f e ih => exact ⟨by simp, ih (defined_app.mp h)⟩
  | bin op a b iha ihb =>
    obtain ⟨ha, hb, _⟩ := defined_bin.mp h
    exact ⟨by simp, iha ha, ihb hb⟩

/-- A normal form that has a value without bindings is a literal. -/
theorem exists_lit_of_normal {e : Coeff κ} (hfree : e.TextFree)
    (hdist : e.AllNodes fun x => x.distribute = x) (h : e.Defined noBindings) : ∃ z, e = lit z := by
  induction e with
  | lit z => exact ⟨z, rfl⟩
  | var name =>
    obtain ⟨z, hz⟩ := h
    cases hz
  | raw text => exact absurd rfl (hfree text)
  | neg e ih =>
    obtain ⟨z, rfl⟩ := ih hfree.2 hdist.2 (defined_neg.mp h)
    cases hdist.1
  | app f e ih =>
    obtain ⟨z, rfl⟩ := ih hfree.2 hdist.2 (defined_app.mp h)
    cases hdist.1
  | bin op a b iha ihb =>
    obtain ⟨ha, hb, hop⟩ := defined_bin.mp h
    obtain ⟨x, rfl⟩ := iha hfree.2.1 hdist.2.1 ha
    obtain ⟨y, rfl⟩ := ihb hfree.2.2 hdist.2.2 hb
    have hroot := hdist.1
    cases op with
    | add | sub | mul => cases hroot
    | div =>
      have hy : (y == 0) = false := hop
      simp [distribute, distributeQuotient, hy] at hroot
    | pow =>
      have hxy : Scalar.dividesByZero x y = false := hop
      simp only [distribute, distributePower, hxy] at hroot
      split at hroot
      · cases hroot
      · split at hroot
        · cases hroot
        · cases hroot

end Coeff

end SpinBoson
