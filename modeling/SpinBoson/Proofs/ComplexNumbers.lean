import Mathlib.Analysis.SpecialFunctions.Pow.Complex
import Mathlib.Analysis.SpecialFunctions.Complex.Arctan
import SpinBoson.Coeff.Key
import SpinBoson.Proofs.ExactScalar

/-! The complex numbers are exact scalars. -/
namespace SpinBoson

open Classical in
noncomputable instance : RealScalar ℝ where
  beq x y := decide (x = y)
  decidableLE := inferInstance
  decidableLT := inferInstance
  abs x := |x|
  pi := Real.pi
  ofDecimal d := d.digits * (10 : ℝ) ^ d.exponent
  hasMinus x := decide (x < 0)
  isWhole x := decide (∃ n : ℤ, x = n)
  text _ := ""

/-- The principal value of the inverse of the sine. -/
noncomputable def complexAsin (z : ℂ) : ℂ :=
  -Complex.I * Complex.log (Complex.I * z + (1 - z ^ 2) ^ (1 / 2 : ℂ))

open Classical in
noncomputable instance : Scalar ℂ ℝ where
  beq z w := decide (z = w)
  ofParts x y := ⟨x, y⟩
  re := Complex.re
  im := Complex.im
  magnitude z := ‖z‖
  power z w := z ^ w
  apply f z :=
    match f with
    | .sin => Complex.sin z
    | .cos => Complex.cos z
    | .tan => Complex.tan z
    | .exp => Complex.exp z
    | .log => Complex.log z
    | .sqrt => z ^ (1 / 2 : ℂ)
    | .sinh => Complex.sinh z
    | .cosh => Complex.cosh z
    | .tanh => Complex.tanh z
    | .asin => complexAsin z
    | .acos => Real.pi / 2 - complexAsin z
    | .atan => Complex.arctan z
    | .abs => ‖z‖
    | .conj => (starRingEnd ℂ) z

theorem complex_beq {z w : ℂ} : (z == w) = true ↔ z = w :=
  decide_eq_true_iff

theorem real_beq {x y : ℝ} : (x == y) = true ↔ x = y :=
  decide_eq_true_iff

open Classical in
theorem isInteger_iff {z : ℂ} : Scalar.isInteger z = true ↔ ∃ n : ℤ, z = n := by
  have hwhole {x : ℝ} : RealScalar.isWhole x = true ↔ ∃ n : ℤ, x = n := decide_eq_true_iff
  rw [Scalar.isInteger, Bool.and_eq_true, real_beq, hwhole]
  constructor
  · rintro ⟨him, n, hn⟩
    exact ⟨n, Complex.ext hn him⟩
  · rintro ⟨n, rfl⟩
    exact ⟨Complex.intCast_im n, n, Complex.intCast_re n⟩

theorem dividesByZero_iff {z w : ℂ} :
    Scalar.dividesByZero z w = false ↔ z ≠ 0 ∨ 0 ≤ w.re := by
  have hre : (Scalar.re w : ℝ) = w.re := rfl
  rw [Scalar.dividesByZero, Bool.and_eq_false_iff, ← Bool.not_eq_true, complex_beq,
    decide_eq_false_iff_not, hre, not_lt]

/-- A whole power of a power, at a base or exponent that may be zero. -/
theorem complex_power_power {x m : ℂ} {n : ℤ} (hm : x ≠ 0 ∨ 0 ≤ m.re)
    (hn : x ^ m ≠ 0 ∨ 0 ≤ (n : ℂ).re) :
    (x ≠ 0 ∨ 0 ≤ (m * n).re) ∧ x ^ (m * n) = (x ^ m) ^ (n : ℂ) := by
  by_cases hx : x = 0
  · subst hx
    by_cases hzero : m = 0
    · subst hzero
      simp
    · have hre : 0 ≤ m.re := hm.resolve_left (· rfl)
      rw [Complex.zero_cpow hzero] at hn ⊢
      have hnn : 0 ≤ (n : ℝ) := by simpa using hn
      refine ⟨.inr ?_, ?_⟩
      · simpa using mul_nonneg hre hnn
      · by_cases hnzero : n = 0
        · simp [hnzero]
        · have hcast : (n : ℂ) ≠ 0 := Int.cast_ne_zero.mpr hnzero
          rw [Complex.zero_cpow hcast, Complex.zero_cpow (mul_ne_zero hzero hcast)]
  · exact ⟨.inl hx, by rw [Complex.cpow_mul_int, Complex.cpow_intCast]⟩

instance : ExactScalar ℂ where
  beq_iff_eq := complex_beq
  add_assoc := add_assoc
  add_comm := add_comm
  zero_add := zero_add
  neg_add_cancel := neg_add_cancel
  sub_eq_add_neg := sub_eq_add_neg
  mul_assoc := mul_assoc
  mul_comm := mul_comm
  one_mul := one_mul
  add_mul := add_mul
  div_mul_cancel x _ h := div_mul_cancel₀ x h
  ofParts_eq x y := by
    change (⟨x, y⟩ : ℂ) = ⟨x, 0⟩ + ⟨y, 0⟩ * ⟨0, 1⟩
    apply Complex.ext <;> simp
  ofReal_one := rfl
  ofReal_neg x := by
    change (⟨-x, 0⟩ : ℂ) = -⟨x, 0⟩
    apply Complex.ext <;> simp
  half_add_half := by
    change (⟨(5 : ℕ) * (10 : ℝ) ^ (-1 : ℤ), 0⟩ : ℂ) + ⟨(5 : ℕ) * (10 : ℝ) ^ (-1 : ℤ), 0⟩ = 1
    apply Complex.ext
    · norm_num
    · simp
  imag_mul_imag := Complex.I_mul_I
  magnitude_le_zero := norm_le_zero_iff
  power_one := Complex.cpow_one
  power_zero := Complex.cpow_zero
  power_neg_one {x} _ := (Complex.cpow_neg_one x).trans (one_div x).symm
  power_power hk hm hmk := by
    obtain ⟨n, rfl⟩ := isInteger_iff.mp hk
    obtain ⟨hdiv, hpow⟩ :=
      complex_power_power (dividesByZero_iff.mp hm) (dividesByZero_iff.mp hmk)
    exact ⟨dividesByZero_iff.mpr hdiv, hpow⟩

instance : ExactPower ℂ where
  isInteger_mul hm hk := by
    obtain ⟨m, rfl⟩ := isInteger_iff.mp hm
    obtain ⟨k, rfl⟩ := isInteger_iff.mp hk
    exact isInteger_iff.mpr ⟨m * k, (Int.cast_mul m k).symm⟩

end SpinBoson
