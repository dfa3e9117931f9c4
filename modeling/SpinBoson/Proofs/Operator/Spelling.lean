import Mathlib.Logic.Relation
import SpinBoson.Proofs.Operator.Coefficients
import SpinBoson.Proofs.Operator.Preservation

/-!
Other spellings of an operator: sums with their terms in another order or associated otherwise,
differences as sums, and products, tensor products and coefficients written out over sums, anywhere
in the operator. All spellings have the same signature, the same coefficients up to literals, and in
every interpretation the same element.
-/
namespace SpinBoson.Operator

variable {κ ρ : Type} [RealScalar ρ] [Scalar κ ρ] {a b : Operator κ}

/-- One change in how sums are written, at some place of an operator. -/
inductive Respells : Operator κ → Operator κ → Prop
  | swap (a b : Operator κ) : Respells (add a b) (add b a)
  | associate (a b c : Operator κ) : Respells (add (add a b) c) (add a (add b c))
  | difference (a b : Operator κ) : Respells (sub a b) (add a (scale (.lit Scalar.minusOne) b))
  | expandLeft {op : Op} (hop : op.IsProduct) (a b c : Operator κ) :
      Respells (bin op (add a b) c) (add (bin op a c) (bin op b c))
  | expandRight {op : Op} (hop : op.IsProduct) (c a b : Operator κ) :
      Respells (bin op c (add a b)) (add (bin op c a) (bin op c b))
  | expandScale (k : Coeff κ) (a b : Operator κ) :
      Respells (scale k (add a b)) (add (scale k a) (scale k b))
  | left (op : Op) {a a' : Operator κ} (b : Operator κ) (h : Respells a a') :
      Respells (bin op a b) (bin op a' b)
  | right (op : Op) (a : Operator κ) {b b' : Operator κ} (h : Respells b b') :
      Respells (bin op a b) (bin op a b')
  | under (k : Coeff κ) {a a' : Operator κ} (h : Respells a a') :
      Respells (scale k a) (scale k a')

/-- Whether two operators differ only in how their sums are written. -/
def SameSpelling : Operator κ → Operator κ → Prop :=
  Relation.EqvGen Respells

/-! What all spellings have in common -/

theorem Respells.signature (h : Respells a b) : SameSignature a b := by
  induction h with
  | swap a b =>
    intro s
    rw [signature_bin_iff (by decide), signature_bin_iff (by decide), and_comm]
  | associate a b c =>
    intro s
    simp only [signature_bin_iff (by decide : Op.add ≠ .kron), and_assoc]
  | difference a b => exact sameSignature_distribute (sub a b)
  | expandLeft hop a b c => exact sameSignature_overSum_left hop a b c
  | expandRight hop c a b => exact sameSignature_overSum_right hop c a b
  | expandScale k a b => exact sameSignature_distribute (scale k (add a b))
  | left op b h ih => exact sameSignature_congruence.bin ih (sameSignature_congruence.refl b)
  | right op a h ih => exact sameSignature_congruence.bin (sameSignature_congruence.refl a) ih
  | under k h ih => exact sameSignature_congruence.scale ih

theorem Respells.coeffsAll {Q : Coeff κ → Prop} (hQ : ∀ z, Q (.lit z)) (h : Respells a b) :
    a.CoeffsAll Q ↔ b.CoeffsAll Q := by
  induction h with
  | swap a b => rw [coeffsAll_bin, coeffsAll_bin, and_comm]
  | associate a b c => simp only [coeffsAll_bin, and_assoc]
  | difference a b => simp only [coeffsAll_bin, coeffsAll_scale, hQ, true_and]
  | expandLeft | expandRight | expandScale =>
    simp only [coeffsAll_bin, coeffsAll_scale]
    tauto
  | left op b h ih | right op b h ih => rw [coeffsAll_bin, coeffsAll_bin, ih]
  | under k h ih => rw [coeffsAll_scale, coeffsAll_scale, ih]

section Elements

variable {ι R : Type} [Fintype ι] [CommSemiring R] {I : Interpretation κ ι R}

theorem elementAt_overSum_left {op : Op} (hop : op.IsProduct) {x y c : Operator κ}
    (h : y.dims = x.dims) (start : Dims) :
    I.elementAt start (add (bin op x c) (bin op y c)) =
      I.elementAt start (bin op (add x y) c) := by
  rcases hop with rfl | rfl
  · simp only [Interpretation.elementAt, add_mul]
  · simp only [Interpretation.elementAt, add_mul, dims_add, h]

theorem elementAt_overSum_right {op : Op} (hop : op.IsProduct) (c x y : Operator κ)
    (start : Dims) :
    I.elementAt start (add (bin op c x) (bin op c y)) =
      I.elementAt start (bin op c (add x y)) := by
  rcases hop with rfl | rfl <;> simp only [Interpretation.elementAt, mul_add]

theorem Respells.elementAt (h : Respells a b) {s : Signature} (hs : a.signature = .ok s)
    (start : Dims) : I.elementAt start b = I.elementAt start a := by
  induction h generalizing s start with
  | swap a b => exact add_comm _ _
  | associate a b c => exact (add_assoc _ _ _).symm
  | difference a b => rfl
  | expandLeft hop a b c =>
    obtain ⟨⟨l, hl⟩, -⟩ := signature_bin_eq_ok hs
    exact elementAt_overSum_left hop (balanced_of_signature hl).1.2.2 start
  | expandRight hop c a b => exact elementAt_overSum_right hop c a b start
  | expandScale k a b => exact (smul_add _ _ _).symm
  | @left op a a' b h ih =>
    obtain ⟨⟨l, hl⟩, -⟩ := signature_bin_eq_ok hs
    have hdims : a'.dims = a.dims :=
      (balanced_of_signature ((h.signature l).mp hl)).2.trans (balanced_of_signature hl).2.symm
    cases op <;> simp only [Interpretation.elementAt, ih hl, hdims]
  | right op a h ih =>
    obtain ⟨-, r, hr⟩ := signature_bin_eq_ok hs
    cases op <;> simp only [Interpretation.elementAt, ih hr]
  | under k h ih => simp only [Interpretation.elementAt, ih hs]

end Elements

namespace SameSpelling

theorem signature (h : SameSpelling a b) : SameSignature a b := by
  induction h with
  | rel a b h => exact h.signature
  | refl a => exact sameSignature_congruence.refl a
  | symm a b _ ih => exact fun s => (ih s).symm
  | trans a b c _ _ ihab ihbc => exact sameSignature_congruence.trans ihab ihbc

theorem coeffsAll {Q : Coeff κ → Prop} (hQ : ∀ z, Q (.lit z)) (h : SameSpelling a b) :
    a.CoeffsAll Q ↔ b.CoeffsAll Q := by
  induction h with
  | rel a b h => exact h.coeffsAll hQ
  | refl a => exact Iff.rfl
  | symm a b _ ih => exact ih.symm
  | trans a b c _ _ ihab ihbc => exact ihab.trans ihbc

/-- In every interpretation all spellings of an operator with a signature mean the same. -/
theorem elementAt {ι R : Type} [Fintype ι] [CommSemiring R] {I : Interpretation κ ι R}
    (h : SameSpelling a b) {s : Signature} (hs : a.signature = .ok s) (start : Dims) :
    I.elementAt start b = I.elementAt start a := by
  induction h with
  | rel a b h => exact h.elementAt hs start
  | refl a => rfl
  | symm a b h ih => exact (ih ((signature h s).mpr hs)).symm
  | trans a b c hab _ ihab ihbc => exact (ihbc ((signature hab s).mp hs)).trans (ihab hs)

end SameSpelling

end SpinBoson.Operator
