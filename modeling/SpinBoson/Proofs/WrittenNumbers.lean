import SpinBoson.Proofs.Coeff.RoundTrip
import SpinBoson.Proofs.ComplexNumbers

/-!
The real numbers that doubles stand for, and complex numbers that compute without rounding and are
written as doubles. They are exact scalars.
-/
namespace SpinBoson

namespace Double

open Float.Model UnpackedFloat

/-! The real numbers that doubles stand for -/

/-- The number that a value stands for, zero if it is infinite or none at all. -/
noncomputable def realValue : UnpackedFloat → ℝ
  | .finite .positive m e _ => m * (2 : ℕ) ^ e
  | .finite .negative m e _ => -(m * (2 : ℕ) ^ e)
  | _ => 0

noncomputable def toReal (x : Double) : ℝ :=
  realValue x.toFloat.toModel.unpack

theorem finite_pos {m : Nat} (hm : 0 < m) (e : Int) : (0 : ℝ) < m * (2 : ℕ) ^ e :=
  mul_pos (Nat.cast_pos.mpr hm) (zpow_pos (Nat.cast_pos.mpr two_pos) e)

theorem realValue_neg (v : UnpackedFloat) : realValue v.neg = -realValue v := by
  cases v with
  | finite s m e hm =>
    cases s
    · exact (neg_neg _).symm
    · rfl
  | zero | infinity | notANumber => exact neg_zero.symm

theorem toReal_of_not_finite {x : Double} (h : ¬ x.isFinite = true) : x.toReal = 0 := by
  change ¬ x.toFloat.toModel.unpack.isFinite = true at h
  unfold toReal
  cases hv : x.toFloat.toModel.unpack with
  | finite | zero =>
    rw [hv] at h
    exact absurd rfl h
  | infinity | notANumber => rfl

theorem isFinite_neg (x : Double) : (-x).isFinite = true ↔ x.isFinite = true := by
  obtain ⟨s, e, m, rfl⟩ := x.exists_ofFields
  rw [neg_ofFields, isFinite_ofFields, isFinite_ofFields]

theorem toReal_neg (x : Double) : (-x).toReal = -x.toReal := by
  by_cases hx : x.isFinite = true
  · rw [toReal, unpack_neg hx, realValue_neg, toReal]
  · rw [toReal_of_not_finite hx, toReal_of_not_finite fun h => hx ((isFinite_neg x).mp h), neg_zero]

/-- Equal doubles stand for the same number. -/
theorem toReal_of_beq {x y : Double} (h : (x == y) = true) : x.toReal = y.toReal := by
  rcases eq_of_compare (beq_iff.mp h) with heq | ⟨s, t, hs, ht⟩
  · rw [toReal, heq, toReal]
  · rw [toReal, hs, toReal, ht]
    rfl

theorem exists_int_of_fraction {b : BinaryFraction} (h : b.isWhole = true) :
    ∃ n : ℤ, (b.mantissa * 2 ^ b.exponent : ℝ) = n := by
  rw [BinaryFraction.isWhole, decide_eq_true_iff] at h
  by_cases hsign : 0 ≤ b.exponent
  · obtain ⟨k, hk⟩ := Int.eq_ofNat_of_zero_le hsign
    exact ⟨b.mantissa * 2 ^ k, by rw [hk]; push_cast; rfl⟩
  · obtain ⟨q, hq⟩ := Nat.dvd_of_mod_eq_zero (h.resolve_left hsign)
    obtain ⟨k, hk⟩ : ∃ k : ℕ, b.exponent = -(k : ℤ) := ⟨b.exponent.natAbs, by omega⟩
    have hpower : (2 : ℝ) ^ k ≠ 0 := pow_ne_zero k two_ne_zero
    rw [hk, Int.natAbs_neg, Int.natAbs_natCast] at hq
    refine ⟨q, ?_⟩
    rw [hk, zpow_neg, zpow_natCast, hq]
    change ((2 ^ k * q : ℕ) : ℝ) * _ = _
    push_cast
    field_simp

section Finite

variable {x : Double} (hx : x.isFinite = true)

include hx

/-- Finite doubles compare to zero like the numbers they stand for. -/
theorem compare_zero :
    x.toFloat.toModel.unpack.compare (0 : Double).toFloat.toModel.unpack = some (cmp x.toReal 0) := by
  rw [zero_unpack, toReal]
  rcases exists_unpack hx with ⟨s, h⟩ | ⟨s, m, e, hm, h⟩
  · have hzero : realValue (.zero s) = 0 := rfl
    rw [h, hzero, (cmp_eq_eq_iff _ _).mpr rfl]
    rfl
  · have hpos := finite_pos hm e
    rw [h]
    cases s with
    | positive =>
      rw [realValue, (cmp_eq_gt_iff _ _).mpr hpos]
      rfl
    | negative =>
      rw [realValue, (cmp_eq_lt_iff _ _).mpr (neg_lt_zero.mpr hpos)]
      rfl

theorem lt_zero_iff : x < 0 ↔ x.toReal < 0 := by
  rw [lt_iff, compare_zero hx, Option.some_inj, cmp_eq_lt_iff]

theorem beq_zero_iff : (x == 0) = true ↔ x.toReal = 0 := by
  rw [beq_iff, compare_zero hx, Option.some_inj, cmp_eq_eq_iff]

theorem le_zero_iff : x ≤ 0 ↔ x.toReal ≤ 0 := by
  have hle : x ≤ 0 ↔ (x.toFloat.toModel.unpack.compare
      (0 : Double).toFloat.toModel.unpack).any (·.isLE) = true := by
    change decide (_ = true) = true ↔ _
    rw [decide_eq_true_iff]
    rfl
  rw [hle, compare_zero hx, Option.any_some]
  rcases lt_trichotomy x.toReal 0 with h | h | h
  · rw [(cmp_eq_lt_iff _ _).mpr h]
    exact iff_of_true rfl h.le
  · rw [(cmp_eq_eq_iff _ _).mpr h]
    exact iff_of_true rfl h.le
  · rw [(cmp_eq_gt_iff _ _).mpr h]
    exact iff_of_false (by decide) h.not_ge

/-- A finite double stands for its magnitude, up to the sign. -/
theorem toReal_eq :
    x.toReal = (BinaryFraction.ofFloat x.toFloat).mantissa *
        2 ^ (BinaryFraction.ofFloat x.toFloat).exponent ∨
      x.toReal = -((BinaryFraction.ofFloat x.toFloat).mantissa *
        2 ^ (BinaryFraction.ofFloat x.toFloat).exponent) := by
  obtain ⟨s, e, m, rfl, he⟩ := exists_of_isFinite hx
  have hzero : e.toNat = 0 ↔ e = 0#11 := by rw [← BitVec.toNat_inj]; rfl
  rw [toReal, unpack_ofFields s m he, ofFloat_ofFields s m he, value]
  simp only [hzero]
  split
  · split
    · rename_i hm
      left
      rw [hm, Nat.cast_zero, zero_mul]
      rfl
    · cases s
      · exact .inr rfl
      · exact .inl rfl
  · cases s
    · exact .inr rfl
    · exact .inl rfl

/-- A double without a fraction stands for an integer. -/
theorem exists_int_of_isWhole (h : RealScalar.isWhole x = true) : ∃ n : ℤ, x.toReal = n := by
  obtain ⟨n, hn⟩ := exists_int_of_fraction (Bool.and_eq_true_iff.mp h).2
  rcases toReal_eq hx with heq | heq
  · exact ⟨n, heq.trans hn⟩
  · exact ⟨-n, by rw [heq, hn, Int.cast_neg]⟩

end Finite

theorem toReal_zero : (0 : Double).toReal = 0 := rfl

theorem toReal_of_unpack {x : Double} {m : Nat} {e : Int} (hm : 0 < m)
    (h : x.toFloat.toModel.unpack = .finite .positive m e hm) : x.toReal = m * 2 ^ e := by
  rw [toReal, h, realValue, Nat.cast_ofNat]

theorem toReal_one : (1 : Double).toReal = 1 := by
  rw [toReal_of_unpack (m := 2 ^ 52) (e := -52) (by decide) rfl]
  norm_num

theorem toReal_half : (Operator.half : Double).toReal = 1 / 2 := by
  rw [toReal_of_unpack (m := 2 ^ 52) (e := -53) (by decide) rfl]
  norm_num

theorem toReal_two : (2 : Double).toReal = 2 := by
  rw [toReal_of_unpack (m := 2 ^ 52) (e := -51) (by decide) rfl]
  norm_num

/-- Whether a double stands for a number and its numeral can be read. -/
structure Shows (x : Double) (r : ℝ) : Prop where
  inRange : Coeff.InRange x
  readsBack : x.ReadsBack
  value : x.toReal = r

theorem shows_zero : (0 : Double).Shows 0 where
  inRange := ⟨rfl, by decide +kernel⟩
  readsBack := by
    unfold ReadsBack
    decide +kernel
  value := toReal_zero

theorem shows_two : (2 : Double).Shows 2 where
  inRange := ⟨rfl, by decide +kernel⟩
  readsBack := by
    unfold ReadsBack
    decide +kernel
  value := toReal_two

end Double

/-! Numbers written as doubles -/

open Classical in
/-- The double that a number is written as; one that has no numeral is written as a half. -/
noncomputable def shown (r : ℝ) : Double :=
  if h : ∃ x : Double, x.Shows r then h.choose
  else if r < 0 then -Operator.half else Operator.half

theorem shows_shown {x : Double} {r : ℝ} (h : x.Shows r) : (shown r).Shows r := by
  have hex : ∃ x : Double, x.Shows r := ⟨x, h⟩
  rw [shown, dif_pos hex]
  exact hex.choose_spec

theorem shown_spec (r : ℝ) : (shown r).isFinite = true ∧ cmp (shown r).toReal 0 = cmp r 0 ∧
    (RealScalar.isWhole (shown r) = true → ∃ n : ℤ, r = n) := by
  by_cases hex : ∃ x : Double, x.Shows r
  · obtain ⟨x, hx⟩ := hex
    have hshown := shows_shown hx
    refine ⟨hshown.inRange.1, by rw [hshown.value], fun h => ?_⟩
    obtain ⟨n, hn⟩ := Double.exists_int_of_isWhole hshown.inRange.1 h
    exact ⟨n, hshown.value.symm.trans hn⟩
  · have hne : r ≠ 0 := by
      rintro rfl
      exact hex ⟨0, Double.shows_zero⟩
    rw [shown, dif_neg hex]
    split
    · rename_i hneg
      refine ⟨rfl, ?_, fun h => absurd h (by decide +kernel)⟩
      rw [Double.toReal_neg, Double.toReal_half, (cmp_eq_lt_iff r 0).mpr hneg, cmp_eq_lt_iff]
      norm_num
    · rename_i hpos
      refine ⟨rfl, ?_, fun h => absurd h (by decide +kernel)⟩
      rw [Double.toReal_half, (cmp_eq_gt_iff r 0).mpr (lt_of_le_of_ne (not_lt.mp hpos) hne.symm),
        cmp_eq_gt_iff]
      norm_num

theorem shown_lt_zero (r : ℝ) : shown r < 0 ↔ r < 0 := by
  obtain ⟨hfinite, hcmp, -⟩ := shown_spec r
  rw [Double.lt_zero_iff hfinite, ← cmp_eq_lt_iff, hcmp, cmp_eq_lt_iff]

theorem shown_beq_zero (r : ℝ) : (shown r == 0) = true ↔ r = 0 := by
  obtain ⟨hfinite, hcmp, -⟩ := shown_spec r
  rw [Double.beq_zero_iff hfinite, ← cmp_eq_eq_iff, hcmp, cmp_eq_eq_iff]

theorem shown_le_zero (r : ℝ) : shown r ≤ 0 ↔ r ≤ 0 := by
  obtain ⟨hfinite, hcmp, -⟩ := shown_spec r
  rw [Double.le_zero_iff hfinite, ← not_lt, ← not_lt, ← cmp_eq_gt_iff, hcmp, cmp_eq_gt_iff]

/-! Complex numbers -/

/-- Complex numbers that are written by the doubles of their parts. -/
@[ext]
structure WrittenComplex where
  value : ℂ

noncomputable instance : Scalar WrittenComplex Double where
  zero := ⟨0⟩
  one := ⟨1⟩
  add z w := ⟨z.value + w.value⟩
  sub z w := ⟨z.value - w.value⟩
  mul z w := ⟨z.value * w.value⟩
  neg z := ⟨-z.value⟩
  div z w := ⟨z.value / w.value⟩
  beq z w := z.value == w.value
  ofParts x y := ⟨⟨x.toReal, y.toReal⟩⟩
  re z := shown z.value.re
  im z := shown z.value.im
  magnitude z := shown ‖z.value‖
  power z w := ⟨z.value ^ w.value⟩
  apply f z := ⟨Scalar.apply f z.value⟩

/-- Factors of one kind keep their order. -/
instance : OrderKey WrittenComplex :=
  ⟨fun _ => 0⟩

namespace WrittenComplex

variable {z w : WrittenComplex}

theorem beq_iff : (z == w) = true ↔ z = w :=
  complex_beq.trans WrittenComplex.ext_iff.symm

theorem eq_zero_iff : z = 0 ↔ z.value = 0 :=
  WrittenComplex.ext_iff

theorem exists_int (h : Scalar.isInteger z = true) : ∃ n : ℤ, z.value = n := by
  obtain ⟨him, hre⟩ := Bool.and_eq_true_iff.mp h
  obtain ⟨n, hn⟩ := (shown_spec z.value.re).2.2 hre
  refine ⟨n, Complex.ext ?_ ?_⟩
  · exact hn.trans (Complex.intCast_re n).symm
  · exact ((shown_beq_zero z.value.im).mp him).trans (Complex.intCast_im n).symm

theorem dividesByZero_eq_false_iff :
    Scalar.dividesByZero z w = false ↔ z.value ≠ 0 ∨ 0 ≤ w.value.re := by
  have hre : Scalar.re w < (0 : Double) ↔ w.value.re < 0 := shown_lt_zero w.value.re
  rw [Scalar.dividesByZero, Bool.and_eq_false_iff, ← Bool.not_eq_true, beq_iff, eq_zero_iff,
    decide_eq_false_iff_not, hre, not_lt]

instance : ExactScalar WrittenComplex where
  beq_iff_eq := beq_iff
  add_assoc x y z := WrittenComplex.ext (add_assoc x.value y.value z.value)
  add_comm x y := WrittenComplex.ext (add_comm x.value y.value)
  zero_add x := WrittenComplex.ext (zero_add x.value)
  neg_add_cancel x := WrittenComplex.ext (neg_add_cancel x.value)
  sub_eq_add_neg x y := WrittenComplex.ext (sub_eq_add_neg x.value y.value)
  mul_assoc x y z := WrittenComplex.ext (mul_assoc x.value y.value z.value)
  mul_comm x y := WrittenComplex.ext (mul_comm x.value y.value)
  one_mul x := WrittenComplex.ext (one_mul x.value)
  add_mul x y z := WrittenComplex.ext (add_mul x.value y.value z.value)
  div_mul_cancel x _ h :=
    WrittenComplex.ext (div_mul_cancel₀ x.value fun hy => h (eq_zero_iff.mpr hy))
  ofParts_eq x y := by
    apply WrittenComplex.ext
    change (⟨x.toReal, y.toReal⟩ : ℂ) =
      ⟨x.toReal, Double.toReal 0⟩ + ⟨y.toReal, Double.toReal 0⟩ * ⟨Double.toReal 0, Double.toReal 1⟩
    rw [Double.toReal_zero, Double.toReal_one]
    exact ExactScalar.ofParts_eq (κ := ℂ) x.toReal y.toReal
  ofReal_one := by
    apply WrittenComplex.ext
    change (⟨Double.toReal 1, Double.toReal 0⟩ : ℂ) = 1
    rw [Double.toReal_one, Double.toReal_zero]
    rfl
  ofReal_neg x := by
    apply WrittenComplex.ext
    change (⟨(-x).toReal, Double.toReal 0⟩ : ℂ) = -⟨x.toReal, Double.toReal 0⟩
    rw [Double.toReal_neg, Double.toReal_zero]
    exact ExactScalar.ofReal_neg (κ := ℂ) x.toReal
  half_add_half := by
    apply WrittenComplex.ext
    change (⟨Double.toReal Operator.half, Double.toReal 0⟩ : ℂ) +
      ⟨Double.toReal Operator.half, Double.toReal 0⟩ = 1
    rw [Double.toReal_half, Double.toReal_zero]
    apply Complex.ext
    · norm_num
    · exact add_zero 0
  imag_mul_imag := by
    apply WrittenComplex.ext
    change (⟨Double.toReal 0, Double.toReal 1⟩ : ℂ) * ⟨Double.toReal 0, Double.toReal 1⟩ = -1
    rw [Double.toReal_one, Double.toReal_zero]
    exact Complex.I_mul_I
  magnitude_le_zero {z} :=
    (shown_le_zero ‖z.value‖).trans (norm_le_zero_iff.trans eq_zero_iff.symm)
  power_one x := WrittenComplex.ext (Complex.cpow_one x.value)
  power_zero x := WrittenComplex.ext (Complex.cpow_zero x.value)
  power_neg_one {x} _ :=
    WrittenComplex.ext ((Complex.cpow_neg_one x.value).trans (one_div x.value).symm)
  power_power {x m k} hk hm hmk := by
    obtain ⟨n, hn⟩ := exists_int hk
    rw [dividesByZero_eq_false_iff] at hm hmk ⊢
    rw [hn] at hmk
    obtain ⟨hdiv, hpow⟩ := complex_power_power hm hmk
    rw [← hn] at hdiv hpow
    exact ⟨hdiv, WrittenComplex.ext hpow⟩

instance : DoubleParts WrittenComplex where
  symm h := beq_iff.mpr (beq_iff.mp h).symm
  trans h h' := beq_iff.mpr ((beq_iff.mp h).trans (beq_iff.mp h'))
  ofParts_congr hx hy := by
    refine beq_iff.mpr (WrittenComplex.ext ?_)
    exact Complex.ext (Double.toReal_of_beq hx) (Double.toReal_of_beq hy)
  neg_ofReal {x} _ := beq_iff.mpr (ExactScalar.ofReal_neg x).symm

end WrittenComplex

end SpinBoson
