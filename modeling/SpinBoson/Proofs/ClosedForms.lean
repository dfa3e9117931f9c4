import Mathlib.Tactic.DeriveCountable
import SpinBoson.Proofs.Coeff.Value
import SpinBoson.Proofs.ComplexNumbers

/-!
The complex numbers that can be written down are exact scalars, too. Since there are only countably
many of them, different coefficients over them can have different keys.
-/
namespace SpinBoson

deriving instance Countable for Func
deriving instance Countable for Coeff.Op
deriving instance Countable for Decimal

/-- Expressions over decimals and the imaginary unit. -/
inductive ClosedForm where
  | decimal (d : Decimal)
  | imag
  | bin (op : Coeff.Op) (a b : ClosedForm)
  | app (f : Func) (a : ClosedForm)
deriving Countable

/-- The number that an expression stands for. -/
noncomputable def ClosedForm.value : ClosedForm → ℂ
  | decimal d => Scalar.ofReal (RealScalar.ofDecimal d : ℝ)
  | imag => Scalar.imag
  | bin op a b => op.apply a.value b.value
  | app f a => Scalar.apply f a.value

/-- Whether a number can be written down. -/
def IsClosed (z : ℂ) : Prop :=
  ∃ e : ClosedForm, e.value = z

namespace IsClosed

variable {z w : ℂ} {x y : ℝ}

theorem ofDecimal (d : Decimal) : IsClosed ((RealScalar.ofDecimal d : ℝ) : ℂ) :=
  ⟨.decimal d, rfl⟩

theorem imag : IsClosed Complex.I :=
  ⟨.imag, rfl⟩

theorem bin (op : Coeff.Op) (hz : IsClosed z) (hw : IsClosed w) : IsClosed (op.apply z w) := by
  obtain ⟨a, rfl⟩ := hz
  obtain ⟨b, rfl⟩ := hw
  exact ⟨.bin op a b, rfl⟩

theorem app (f : Func) (hz : IsClosed z) : IsClosed (Scalar.apply f z) := by
  obtain ⟨a, rfl⟩ := hz
  exact ⟨.app f a, rfl⟩

theorem ofNat (n : ℕ) : IsClosed n := by
  have h := ofDecimal ⟨n, 0⟩
  have hn : (RealScalar.ofDecimal ⟨n, 0⟩ : ℝ) = n := by
    change (n : ℝ) * (10 : ℝ) ^ (0 : ℤ) = n
    rw [zpow_zero, mul_one]
  rwa [hn, Complex.ofReal_natCast] at h

theorem zero : IsClosed 0 := by
  simpa using ofNat 0

theorem one : IsClosed 1 := by
  simpa using ofNat 1

theorem neg (hz : IsClosed z) : IsClosed (-z) := by
  rw [← zero_sub]
  exact zero.bin .sub hz

theorem ofReal_neg (hx : IsClosed x) : IsClosed ((-x : ℝ) : ℂ) := by
  rw [Complex.ofReal_neg]
  exact hx.neg

theorem conj (hz : IsClosed z) : IsClosed ((starRingEnd ℂ) z) :=
  hz.app .conj

theorem re (hz : IsClosed z) : IsClosed (z.re : ℂ) := by
  rw [Complex.re_eq_add_conj]
  exact (hz.bin .add hz.conj).bin .div (ofNat 2)

theorem im (hz : IsClosed z) : IsClosed (z.im : ℂ) := by
  rw [Complex.im_eq_sub_conj]
  exact (hz.bin .sub hz.conj).bin .div ((ofNat 2).bin .mul imag)

theorem norm (hz : IsClosed z) : IsClosed (‖z‖ : ℂ) :=
  hz.app .abs

theorem abs (hx : IsClosed x) : IsClosed (|x| : ℝ) := by
  have h := hx.norm
  rwa [Complex.norm_real, Real.norm_eq_abs] at h

theorem pi : IsClosed Real.pi := by
  have h : (Real.pi : ℂ) = Complex.log (-1) / Complex.I := by
    rw [Complex.log_neg_one, mul_div_cancel_right₀ _ Complex.I_ne_zero]
  rw [h]
  exact (one.neg.app .log).bin .div imag

theorem ofParts (hx : IsClosed x) (hy : IsClosed y) : IsClosed ⟨x, y⟩ := by
  rw [Complex.mk_eq_add_mul_I]
  exact hx.bin .add (hy.bin .mul imag)

end IsClosed

/-- The real numbers that can be written down. -/
def ClosedReal : Type :=
  {x : ℝ // IsClosed x}

/-- The complex numbers that can be written down. -/
def ClosedNumber : Type :=
  {z : ℂ // IsClosed z}

noncomputable instance : RealScalar ClosedReal where
  zero := ⟨0, .zero⟩
  one := ⟨1, .one⟩
  neg x := ⟨-x.1, x.2.ofReal_neg⟩
  beq x y := x.1 == y.1
  le x y := x.1 ≤ y.1
  lt x y := x.1 < y.1
  decidableLE x y := RealScalar.decidableLE x.1 y.1
  decidableLT x y := RealScalar.decidableLT x.1 y.1
  abs x := ⟨|x.1|, x.2.abs⟩
  pi := ⟨Real.pi, .pi⟩
  ofDecimal d := ⟨RealScalar.ofDecimal d, .ofDecimal d⟩
  hasMinus x := RealScalar.hasMinus x.1
  isWhole x := RealScalar.isWhole x.1
  text x := RealScalar.text x.1

noncomputable instance : Scalar ClosedNumber ClosedReal where
  zero := ⟨0, .zero⟩
  one := ⟨1, .one⟩
  add z w := ⟨z.1 + w.1, z.2.bin .add w.2⟩
  sub z w := ⟨z.1 - w.1, z.2.bin .sub w.2⟩
  mul z w := ⟨z.1 * w.1, z.2.bin .mul w.2⟩
  neg z := ⟨-z.1, z.2.neg⟩
  div z w := ⟨z.1 / w.1, z.2.bin .div w.2⟩
  beq z w := z.1 == w.1
  ofParts x y := ⟨⟨x.1, y.1⟩, x.2.ofParts y.2⟩
  re z := ⟨z.1.re, z.2.re⟩
  im z := ⟨z.1.im, z.2.im⟩
  magnitude z := ⟨‖z.1‖, z.2.norm⟩
  power z w := ⟨Scalar.power z.1 w.1, z.2.bin .pow w.2⟩
  apply f z := ⟨Scalar.apply f z.1, z.2.app f⟩

namespace ClosedNumber

theorem ext {z w : ClosedNumber} (h : z.1 = w.1) : z = w :=
  Subtype.ext h

instance : ExactScalar ClosedNumber where
  beq_iff_eq := complex_beq.trans Subtype.ext_iff.symm
  add_assoc x y z := ext (add_assoc x.1 y.1 z.1)
  add_comm x y := ext (add_comm x.1 y.1)
  zero_add x := ext (zero_add x.1)
  neg_add_cancel x := ext (neg_add_cancel x.1)
  sub_eq_add_neg x y := ext (sub_eq_add_neg x.1 y.1)
  mul_assoc x y z := ext (mul_assoc x.1 y.1 z.1)
  mul_comm x y := ext (mul_comm x.1 y.1)
  one_mul x := ext (one_mul x.1)
  add_mul x y z := ext (add_mul x.1 y.1 z.1)
  div_mul_cancel x _ h := ext (div_mul_cancel₀ x.1 fun hy => h (ext hy))
  ofParts_eq x y := ext (ExactScalar.ofParts_eq x.1 y.1)
  ofReal_one := ext ExactScalar.ofReal_one
  ofReal_neg x := ext (ExactScalar.ofReal_neg x.1)
  half_add_half := ext ExactScalar.half_add_half
  imag_mul_imag := ext ExactRing.imag_mul_imag
  magnitude_le_zero {z} :=
    norm_le_zero_iff.trans ⟨fun h => ext (w := 0) h, fun h => congrArg Subtype.val h⟩
  power_one x := ext (ExactScalar.power_one x.1)
  power_zero x := ext (ExactScalar.power_zero x.1)
  power_neg_one h := ext (ExactScalar.power_neg_one fun hx => h (ext hx))
  power_power hk hm hmk := by
    obtain ⟨hdiv, hpow⟩ := ExactScalar.power_power (κ := ℂ) hk hm hmk
    exact ⟨hdiv, ext hpow⟩

instance : ExactPower ClosedNumber where
  isInteger_mul {z w} hz hw := by
    have hmul : Scalar.isInteger (z.1 * w.1) = true := ExactPower.isInteger_mul hz hw
    exact hmul

instance : Nontrivial ClosedNumber :=
  ⟨1, 0, fun h => one_ne_zero (congrArg Subtype.val h : (1 : ℂ) = 0)⟩

instance : Countable ClosedNumber := by
  have hvalue : Function.Surjective fun e : ClosedForm => (⟨e.value, e, rfl⟩ : ClosedNumber) := by
    rintro ⟨z, e, rfl⟩
    exact ⟨e, rfl⟩
  exact hvalue.countable

end ClosedNumber

instance countableString : Countable String := by
  have : Countable Char :=
    Function.Injective.countable (f := fun c : Char => c.toNat) fun _ _ h => Char.toNat_inj.mp h
  exact Function.Injective.countable (f := String.toList) fun _ _ h => String.toList_injective h

deriving instance Countable for Coeff

/-- Every coefficient has a key of its own. -/
noncomputable instance : OrderKey ClosedNumber where
  key := (exists_injective_nat (Coeff ClosedNumber)).choose

theorem ClosedNumber.key_injective :
    Function.Injective (OrderKey.key : Coeff ClosedNumber → ℕ) :=
  (exists_injective_nat (Coeff ClosedNumber)).choose_spec

end SpinBoson
