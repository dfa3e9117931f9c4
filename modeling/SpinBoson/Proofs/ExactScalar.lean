import Mathlib.Tactic.Ring
import SpinBoson.Canonical.Distributed
import SpinBoson.Operator.Basic

/-!
Scalars that compute without rounding: the laws of a field with an imaginary unit and a half, and
those of powers with whole exponents.
-/
namespace SpinBoson

deriving instance ReflBEq, LawfulBEq for Coeff
deriving instance ReflBEq, LawfulBEq for Operator

/-- The laws of sums and products of complex numbers, and that no number but zero is negligible. -/
class ExactRing (κ : Type) {ρ : Type} [RealScalar ρ] [Scalar κ ρ] : Prop where
  beq_iff_eq : ∀ {z w : κ}, (z == w) = true ↔ z = w
  add_assoc : ∀ x y z : κ, x + y + z = x + (y + z)
  add_comm : ∀ x y : κ, x + y = y + x
  zero_add : ∀ x : κ, 0 + x = x
  neg_add_cancel : ∀ x : κ, -x + x = 0
  sub_eq_add_neg : ∀ x y : κ, x - y = x + -y
  mul_assoc : ∀ x y z : κ, x * y * z = x * (y * z)
  mul_comm : ∀ x y : κ, x * y = y * x
  one_mul : ∀ x : κ, 1 * x = x
  add_mul : ∀ x y z : κ, (x + y) * z = x * z + y * z
  imag_mul_imag : (Scalar.imag : κ) * Scalar.imag = -1
  magnitude_le_zero : ∀ {z : κ}, Scalar.magnitude z ≤ (0 : ρ) ↔ z = 0

/-- The laws of complex arithmetic, as far as normal forms rely on them. -/
class ExactScalar (κ : Type) {ρ : Type} [RealScalar ρ] [Scalar κ ρ] : Prop extends
    ExactRing κ where
  div_mul_cancel : ∀ x {y : κ}, y ≠ 0 → x / y * y = x
  ofParts_eq : ∀ x y : ρ, (Scalar.ofParts x y : κ) = Scalar.ofReal x + Scalar.ofReal y * Scalar.imag
  ofReal_one : (Scalar.ofReal (1 : ρ) : κ) = 1
  ofReal_neg : ∀ x : ρ, (Scalar.ofReal (-x) : κ) = -Scalar.ofReal x
  half_add_half : (Scalar.ofReal (Operator.half : ρ) : κ) + Scalar.ofReal (Operator.half : ρ) = 1
  power_one : ∀ x : κ, Scalar.power x 1 = x
  power_zero : ∀ x : κ, Scalar.power x 0 = 1
  power_neg_one : ∀ {x : κ}, x ≠ 0 → Scalar.power x (-1) = 1 / x
  /-- A whole power of a power is a power wherever it has a value. -/
  power_power : ∀ {x m k : κ}, Scalar.isInteger k = true → Scalar.dividesByZero x m = false →
    Scalar.dividesByZero (Scalar.power x m) k = false →
      Scalar.dividesByZero x (m * k) = false ∧
        Scalar.power x (m * k) = Scalar.power (Scalar.power x m) k

/-- Exact scalars among which products of whole numbers are whole. -/
class ExactPower (κ : Type) {ρ : Type} [RealScalar ρ] [Scalar κ ρ] : Prop extends
    ExactScalar κ where
  isInteger_mul : ∀ {m k : κ}, Scalar.isInteger m = true → Scalar.isInteger k = true →
    Scalar.isInteger (m * k) = true

-- the operations of a scalar are its own, also where it is a ring
attribute [instance (high)] Scalar.toZero Scalar.toOne Scalar.toAdd Scalar.toSub Scalar.toMul
  Scalar.toNeg Scalar.toDiv Scalar.toBEq

namespace ExactRing

variable {κ ρ : Type} [RealScalar ρ] [Scalar κ ρ] [ExactRing κ]

instance (priority := low) : LawfulBEq κ where
  eq_of_beq h := beq_iff_eq.mp h
  rfl := beq_iff_eq.mpr rfl

protected theorem zero_mul (x : κ) : 0 * x = 0 := by
  have h : 0 * x + 0 * x = 0 * x := by rw [← add_mul, zero_add]
  calc
    0 * x = -(0 * x) + (0 * x + 0 * x) := by rw [← add_assoc, neg_add_cancel, zero_add]
    _ = 0 := by rw [h, neg_add_cancel]

instance (priority := low) : CommRing κ where
  add_assoc := add_assoc
  add_comm := add_comm
  zero_add := zero_add
  add_zero x := (add_comm x 0).trans (zero_add x)
  neg_add_cancel := neg_add_cancel
  sub_eq_add_neg := sub_eq_add_neg
  mul_assoc := mul_assoc
  mul_comm := mul_comm
  one_mul := one_mul
  mul_one x := (mul_comm x 1).trans (one_mul x)
  right_distrib := add_mul
  left_distrib x y z := by rw [mul_comm, add_mul, mul_comm y, mul_comm z]
  zero_mul := ExactRing.zero_mul
  mul_zero x := (mul_comm x 0).trans (ExactRing.zero_mul x)
  nsmul := nsmulRec
  zsmul := zsmulRec

theorem isNegligible_zero {z : κ} : Scalar.isNegligible (0 : ρ) z = true ↔ z = 0 := by
  rw [Scalar.isNegligible, decide_eq_true_iff]
  exact magnitude_le_zero

end ExactRing

namespace ExactScalar

variable {κ ρ : Type} [RealScalar ρ] [Scalar κ ρ] [ExactScalar κ]

theorem ofReal_zero : (Scalar.ofReal (0 : ρ) : κ) = 0 := by
  have h : (Scalar.imag : κ) = Scalar.ofReal (0 : ρ) + Scalar.ofReal (1 : ρ) * Scalar.imag :=
    ofParts_eq 0 1
  rw [ofReal_one, ExactRing.one_mul] at h
  exact add_eq_right.mp h.symm

theorem ofParts_zero (y : ρ) :
    (Scalar.ofParts 0 y : κ) = Scalar.ofReal y * Scalar.imag := by
  rw [ofParts_eq, ofReal_zero, zero_add]

theorem minusOne_eq : (Scalar.minusOne : κ) = -1 := by
  rw [Scalar.minusOne, ofReal_neg, ofReal_one]

theorem dividesByZero_of_ne {x : κ} (hx : x ≠ 0) (y : κ) : Scalar.dividesByZero x y = false := by
  simp [Scalar.dividesByZero, hx]

theorem div_eq_mul {x y : κ} (hy : y ≠ 0) : x / y = x * (1 / y) := by
  calc
    x / y = x / y * (1 / y * y) := by rw [div_mul_cancel 1 hy, mul_one]
    _ = x / y * y * (1 / y) := by ring
    _ = x * (1 / y) := by rw [div_mul_cancel x hy]

end ExactScalar

end SpinBoson
