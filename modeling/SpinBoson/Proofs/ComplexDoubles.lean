import SpinBoson.Coeff.Normal
import SpinBoson.Proofs.Coeff.Collect
import SpinBoson.Proofs.Doubles
import SpinBoson.Proofs.ExactScalar

/-!
Complex doubles obey the laws that normal forms rely on: their equality test is symmetric and
transitive, trees that test equal have one key, and products with one leave finite numbers alone.
-/
namespace SpinBoson

open Float.Model UnpackedFloat

namespace Double

/-! Equality -/

theorem beq_symm {x y : Double} (h : (x == y) = true) : (y == x) = true := by
  rw [beq_iff] at h ⊢
  rcases eq_of_compare h with heq | ⟨s, s', hx, hy⟩
  · rw [heq] at h ⊢
    exact h
  · rw [hx, hy]
    rfl

theorem beq_trans {x y z : Double} (hxy : (x == y) = true) (hyz : (y == z) = true) :
    (x == z) = true := by
  rw [beq_iff] at hxy hyz ⊢
  rcases eq_of_compare hxy with heq | ⟨s, s', hx, hy⟩
  · rwa [heq]
  · rcases eq_of_compare hyz with heq | ⟨t, t', -, hz⟩
    · rwa [← heq]
    · rw [hx, hz]
      rfl

/-- The bits of a number with a value are those of its value. -/
theorem bits_eq {x : Double} (h : x.toFloat.toModel.unpack ≠ .notANumber) :
    x.bits = ⟨UnpackedFloat.pack .binary64 x.toFloat.toModel.unpack⟩ := by
  obtain ⟨s, e, m, rfl⟩ := x.exists_ofFields
  by_cases he : e = -1#11
  · subst he
    have hvalue : UnpackedFloat.unpack .binary64 (packComponents .binary64 s (-1#11) m) =
        if m = 0#52 then .infinity s else .notANumber := by
      unfold UnpackedFloat.unpack
      simp only [unpackMantissa_packComponents, unpackExponent_packComponents,
        unpackSign_packComponents, if_true]
    have hmodel : (ofFields s (-1#11) m).toFloat.toModel.unpack = UnpackedFloat.unpack .binary64
        (UnpackedFloat.pack .binary64 (if m = 0#52 then .infinity s else .notANumber)) := by
      rw [← hvalue]
      rfl
    by_cases hm : m = 0#52
    · subst hm
      rw [hmodel, if_pos rfl]
      cases s <;> rfl
    · rw [hmodel, if_neg hm] at h
      exact absurd rfl h
  · rw [unpack_ofFields s m he, pack_value s he]
    rfl

theorem bits_of_beq {x y : Double} (h : (x == y) = true) (hx : (x == 0) = false) :
    x.bits = y.bits := by
  have hcompare := beq_iff.mp h
  rcases eq_of_compare hcompare with heq | ⟨s, s', hzero, -⟩
  · have hnan : x.toFloat.toModel.unpack ≠ .notANumber := fun hnan => by
      rw [hnan] at hcompare
      cases hcompare
    rw [bits_eq hnan, bits_eq (heq ▸ hnan), heq]
  · have hx' : (x == 0) = true := by
      rw [beq_iff, hzero]
      rfl
    rw [hx'] at hx
    cases hx

/-- Numbers that test equal are the same number, or zeros. -/
theorem eq_of_beq {x y : Double} (h : (x == y) = true) :
    x = y ∨ ∃ s t, x.toFloat.toModel.unpack = .zero s ∧ y.toFloat.toModel.unpack = .zero t := by
  by_cases hx : (x == 0) = true
  · have hy := beq_trans (beq_symm h) hx
    have hzero {z : Double} (hz : (z == 0) = true) : ∃ s, z.toFloat.toModel.unpack = .zero s := by
      rw [beq_iff, zero_unpack] at hz
      rcases eq_of_compare hz with heq | ⟨s, -, hs, -⟩
      · exact ⟨_, heq⟩
      · exact ⟨s, hs⟩
    obtain ⟨s, hs⟩ := hzero hx
    obtain ⟨t, ht⟩ := hzero hy
    exact .inr ⟨s, t, hs, ht⟩
  · obtain ⟨a⟩ := x
    obtain ⟨b⟩ := y
    exact .inl (congrArg Double.mk (bits_of_beq h (Bool.eq_false_iff.mpr hx)))

/-! Lengths -/

/-- The length of a vector along an axis. -/
def axisLength (x : Double) : Double :=
  outcome [x] (if x.toFloat.isInf then 1 / 0 else if x.toFloat.isNaN then 0 / 0 else x.toFloat.abs)

section Zero

variable {x y : Double} {s : Sign}

theorem isNaN_of_zero (hx : x.toFloat.toModel.unpack = .zero s) : x.toFloat.isNaN = false := by
  change x.toFloat.toModel.unpack.isNaN = false
  rw [hx]
  rfl

theorem isInf_of_zero (hx : x.toFloat.toModel.unpack = .zero s) : x.toFloat.isInf = false := by
  change x.toFloat.toModel.unpack.isInf = false
  rw [hx]
  rfl

theorem float_beq_zero (hx : x.toFloat.toModel.unpack = .zero s) : (x.toFloat == 0) = true := by
  change (x.toFloat.toModel.unpack.compare (0 : Float).toModel.unpack == some .eq) = true
  rw [hx]
  rfl

theorem abs_of_zero (hx : x.toFloat.toModel.unpack = .zero s) :
    x.toFloat.abs = .ofModel (Float.Model.pack (.zero .positive)) := by
  change Float.ofModel (Float.Model.pack x.toFloat.toModel.unpack.abs) = _
  rw [hx]
  rfl

theorem unpack_of_float_beq_zero (h : (x.toFloat == 0) = true) :
    ∃ s, x.toFloat.toModel.unpack = .zero s := by
  have hcompare : x.toFloat.toModel.unpack.compare (.zero .positive) = some .eq := by
    change (x.toFloat.toModel.unpack.compare (0 : Float).toModel.unpack == some .eq) = true at h
    exact beq_iff_eq.mp h
  rcases eq_of_compare hcompare with heq | ⟨s, -, hs, -⟩
  · exact ⟨_, heq⟩
  · exact ⟨s, hs⟩

theorem hypot_zero_left (hx : x.toFloat.toModel.unpack = .zero s) : x.hypot y = y.axisLength := by
  have hoperands : [x, y].find? isNaN = [y].find? isNaN := by
    rw [List.find?_cons, show x.isNaN = false from isNaN_of_zero hx]
  have hvalue : SpinBoson.hypot x.toFloat y.toFloat =
      if y.toFloat.isInf then 1 / 0 else if y.toFloat.isNaN then 0 / 0 else y.toFloat.abs := by
    rw [SpinBoson.hypot, isInf_of_zero hx, isNaN_of_zero hx, float_beq_zero hx]
    simp only [Bool.false_or, if_true]
    split
    · rfl
    · split
      · rfl
      · split
        · rename_i hy
          obtain ⟨t, ht⟩ := unpack_of_float_beq_zero hy
          rw [abs_of_zero hx, abs_of_zero ht]
        · rfl
  rw [hypot, lift₂, hvalue, axisLength, outcome, outcome, hoperands]

theorem hypot_zero_right (hy : y.toFloat.toModel.unpack = .zero s) : x.hypot y = x.axisLength := by
  have hoperands : [x, y].find? isNaN = [x].find? isNaN := by
    rw [List.find?_cons, List.find?_cons, List.find?_cons,
      show y.isNaN = false from isNaN_of_zero hy]
  have hvalue : SpinBoson.hypot x.toFloat y.toFloat =
      if x.toFloat.isInf then 1 / 0 else if x.toFloat.isNaN then 0 / 0 else x.toFloat.abs := by
    rw [SpinBoson.hypot, isInf_of_zero hy, isNaN_of_zero hy, float_beq_zero hy]
    simp only [Bool.or_false, if_true]
  rw [hypot, lift₂, hvalue, axisLength, outcome, outcome, hoperands]

end Zero

theorem hypot_congr {x y x' y' : Double} (hx : (x == x') = true) (hy : (y == y') = true) :
    x.hypot y = x'.hypot y' := by
  have hfirst : x.hypot y = x'.hypot y := by
    rcases eq_of_beq hx with rfl | ⟨s, t, hs, ht⟩
    · rfl
    · rw [hypot_zero_left hs, hypot_zero_left ht]
  rw [hfirst]
  rcases eq_of_beq hy with rfl | ⟨s, t, hs, ht⟩
  · rfl
  · rw [hypot_zero_right hs, hypot_zero_right ht]

/-! Products with one and with zero -/

/-- Whether rounding leaves a mantissa alone at its exponent. -/
def IsRounded (m : Nat) (e : Int) : Prop :=
  Format.binary64.targetExponent (totalExponent m e) = e

theorem repeat_shiftRightOne (n m : Nat) :
    n.repeat ExtendedMantissa.shiftRightOne ⟨2 ^ n * m, false, false⟩ = ⟨m, false, false⟩ := by
  induction n generalizing m with
  | zero => simp [Nat.repeat]
  | succ n ih =>
    have h : 2 ^ (n + 1) * m = 2 ^ n * (2 * m) := by ring
    rw [Nat.repeat, h, ih]
    simp [ExtendedMantissa.shiftRightOne]

theorem totalExponent_shift {m : Nat} (hm : 0 < m) (n : Nat) (e : Int) :
    totalExponent (2 ^ n * m) (e - n) = totalExponent m e := by
  have hlog : (2 ^ n * m).log2 = m.log2 + n := by
    induction n with
    | zero => simp
    | succ n ih =>
      have hpos : 2 ^ n * m ≠ 0 := Nat.ne_of_gt (Nat.mul_pos (Nat.two_pow_pos n) hm)
      rw [Nat.pow_succ', Nat.mul_assoc, Nat.log2_two_mul hpos, ih]
      omega
  simp only [totalExponent, hlog]
  omega

/-- Rounding undoes a shift to the left. -/
theorem roundWithAccuracy_shift {m : Nat} {e : Int} (hm : 0 < m) (h : IsRounded m e) (s : Sign)
    (n : Nat) : roundWithAccuracy .binary64 s (2 ^ n * m) (e - n) .exact = .finite s m e hm := by
  have hfirst : shiftToTargetExponent .binary64 (2 ^ n * m) (e - n) .exact = (⟨m, false, false⟩, e) := by
    unfold shiftToTargetExponent
    rw [totalExponent_shift hm, h]
    unfold shiftToExponent
    have hamount : (e - (e - (n : Int))).toNat = n := by omega
    simp only [hamount, ExtendedMantissa.ofMantissaAndAccuracy]
    refine Prod.ext (repeat_shiftRightOne n m) ?_
    dsimp only
    omega
  have hsecond : shiftToTargetExponent .binary64 m e .exact = (⟨m, false, false⟩, e) := by
    unfold shiftToTargetExponent
    rw [h]
    unfold shiftToExponent
    simp only [Int.sub_self, Int.toNat_zero, ExtendedMantissa.ofMantissaAndAccuracy]
    exact Prod.ext rfl (by simp)
  unfold roundWithAccuracy
  simp only [hfirst, ExtendedMantissa.roundedMantissa, ExtendedMantissa.accuracy,
    Accuracy.roundToNearestEven, hsecond]
  rw [dif_neg (Nat.ne_of_gt hm)]

theorem isRounded_value {s t : Sign} {e : BitVec 11} {m : BitVec 52} {n : Nat} {k : Int}
    {hn : 0 < n} (h : value s e m = .finite t n k hn) : IsRounded n k := by
  have hm := m.isLt
  have hbits : (Format.binary64.mantissaBits : Int) = 53 := rfl
  have hleast : Format.binary64.minExponent = -1074 := by decide
  unfold IsRounded Format.targetExponent totalExponent
  rw [hbits, hleast]
  unfold value at h
  split at h
  · split at h
    · cases h
    · cases h
      have hlog := (Nat.log2_lt hn.ne').mpr hm
      omega
  · rename_i hzero
    cases h
    have hlt := (Nat.log2_lt (n := 2 ^ 52 + m.toNat) (k := 53) (by omega)).mpr (by omega)
    have hle := (Nat.le_log2 (n := 2 ^ 52 + m.toNat) (k := 52) (by omega)).mpr (by omega)
    have hpos : e.toNat ≠ 0 := fun heq => hzero (BitVec.eq_of_toNat_eq heq)
    omega

section Finite

variable {x y : Double}

theorem unpack_pack (hx : x.isFinite = true) :
    (Float.Model.pack x.toFloat.toModel.unpack).unpack = x.toFloat.toModel.unpack := by
  obtain ⟨s, e, m, rfl, he⟩ := exists_of_isFinite hx
  rw [unpack_ofFields s m he]
  change UnpackedFloat.unpack .binary64 (UnpackedFloat.pack .binary64 (value s e m)) = _
  rw [pack_value s he, unpack_packComponents s he]

theorem ne_notANumber (hx : x.isFinite = true) : x.toFloat.toModel.unpack ≠ .notANumber := by
  rcases exists_unpack hx with ⟨s, h⟩ | ⟨s, m, e, hm, h⟩
  · rw [h]
    nofun
  · rw [h]
    nofun

/-- An operation whose value compares equal to a finite number has an outcome that does. -/
theorem outcome_beq {operands : List Double} {f : Float} (hx : x.isFinite = true)
    (h : f.toModel.unpack.compare x.toFloat.toModel.unpack = some .eq) :
    (outcome operands f == x) = true := by
  have hnan : f.isNaN = false := by
    change f.toModel.unpack.isNaN = false
    rcases eq_of_compare h with heq | ⟨s, s', hf, -⟩
    · rw [heq]
      exact isNaN_eq_false hx
    · rw [hf]
      rfl
  have hpack : (ofFloat f).toFloat.toModel.unpack = f.toModel.unpack := by
    change (Float.Model.pack f.toModel.unpack).unpack = f.toModel.unpack
    rcases eq_of_compare h with heq | ⟨s, s', hf, -⟩
    · rw [heq]
      exact unpack_pack hx
    · rw [hf]
      cases s <;> rfl
  rw [outcome, hnan, beq_iff, if_neg (by decide), hpack]
  exact h

theorem one_mul_eq (hx : x.isFinite = true) : 1 * x = x := by
  have hone : (1 : Double).toFloat.toModel.unpack = .finite .positive (2 ^ 52) (-52) (by decide) :=
    rfl
  have hmul : UnpackedFloat.mul .binary64 (1 : Double).toFloat.toModel.unpack
      x.toFloat.toModel.unpack = x.toFloat.toModel.unpack := by
    rw [hone]
    obtain ⟨s, e, m, rfl, he⟩ := exists_of_isFinite hx
    rw [unpack_ofFields s m he]
    cases hv : value s e m with
    | notANumber | infinity =>
      unfold value at hv
      split at hv <;> try split at hv
      all_goals cases hv
    | zero t => cases t <;> rfl
    | finite t n k hn =>
      have hround := roundWithAccuracy_shift hn (isRounded_value hv) (.positive * t) 52
      have hsign : Sign.positive * t = t := by cases t <;> rfl
      rw [hsign] at hround
      rw [UnpackedFloat.mul, hsign, ← hround]
      congr 1
      omega
  have hmodel : ((1 : Double).toFloat * x.toFloat).toModel =
      Float.Model.pack x.toFloat.toModel.unpack := congrArg Float.Model.pack hmul
  have hnan : ((1 : Double).toFloat * x.toFloat).isNaN = false := by
    change ((1 : Double).toFloat * x.toFloat).toModel.unpack.isNaN = false
    rw [hmodel, unpack_pack hx]
    exact isNaN_eq_false hx
  change outcome _ ((1 : Double).toFloat * x.toFloat) = x
  rw [outcome, hnan, if_neg (by decide)]
  have hbits := bits_eq (ne_notANumber hx)
  obtain ⟨b⟩ := x
  change (⟨((1 : Double).toFloat * Double.toFloat ⟨b⟩).toModel.toBits⟩ : Double) = _
  rw [hmodel]
  exact congrArg Double.mk hbits.symm

theorem unpack_zero_mul (hx : x.isFinite = true) :
    ∃ s, (0 * x).toFloat.toModel.unpack = .zero s := by
  have hmul : ∃ s, UnpackedFloat.mul .binary64 (0 : Double).toFloat.toModel.unpack
      x.toFloat.toModel.unpack = .zero s := by
    rw [zero_unpack]
    rcases exists_unpack hx with ⟨s, h⟩ | ⟨s, m, e, hm, h⟩
    · rw [h]
      exact ⟨_, rfl⟩
    · rw [h]
      exact ⟨_, rfl⟩
  obtain ⟨s, hs⟩ := hmul
  have hzero : ((0 : Double).toFloat * x.toFloat).toModel.unpack = .zero s := by
    change (Float.Model.pack (UnpackedFloat.mul .binary64 _ _)).unpack = _
    rw [hs]
    cases s <;> rfl
  have hbeq : (0 * x == (0 : Double)) = true := by
    refine outcome_beq rfl ?_
    rw [hzero]
    rfl
  rw [beq_iff, zero_unpack] at hbeq
  rcases eq_of_compare hbeq with heq | ⟨t, -, ht, -⟩
  · exact ⟨_, heq⟩
  · exact ⟨t, ht⟩

theorem sub_zero_beq (hx : x.isFinite = true) {s : Sign}
    (hy : y.toFloat.toModel.unpack = .zero s) : (x - y == x) = true := by
  refine outcome_beq hx ?_
  change (Float.Model.pack (UnpackedFloat.sub .binary64 x.toFloat.toModel.unpack
    y.toFloat.toModel.unpack)).unpack.compare _ = _
  rcases exists_unpack hx with ⟨t, h⟩ | ⟨t, m, e, hm, h⟩
  · rw [hy, h]
    cases t <;> cases s <;> rfl
  · have hsub : UnpackedFloat.sub .binary64 x.toFloat.toModel.unpack
        y.toFloat.toModel.unpack = x.toFloat.toModel.unpack := by
      rw [hy, h]
      rfl
    rw [hsub, unpack_pack hx]
    exact compare_self (ne_notANumber hx)

theorem add_zero_beq (hx : x.isFinite = true) {s : Sign}
    (hy : y.toFloat.toModel.unpack = .zero s) : (x + y == x) = true := by
  refine outcome_beq hx ?_
  change (Float.Model.pack (UnpackedFloat.add .binary64 x.toFloat.toModel.unpack
    y.toFloat.toModel.unpack)).unpack.compare _ = _
  rcases exists_unpack hx with ⟨t, h⟩ | ⟨t, m, e, hm, h⟩
  · rw [hy, h]
    cases t <;> cases s <;> rfl
  · have hadd : UnpackedFloat.add .binary64 x.toFloat.toModel.unpack
        y.toFloat.toModel.unpack = x.toFloat.toModel.unpack := by
      rw [hy, h]
      rfl
    rw [hadd, unpack_pack hx]
    exact compare_self (ne_notANumber hx)

end Finite

end Double

namespace ComplexDouble

theorem beq_iff {z w : ComplexDouble} :
    (z == w) = true ↔ (z.re == w.re) = true ∧ (z.im == w.im) = true := by
  obtain ⟨x, y⟩ := z
  obtain ⟨u, v⟩ := w
  exact Bool.and_eq_true_iff

instance : LawfulTest ComplexDouble where
  symm h :=
    have ⟨hre, him⟩ := beq_iff.mp h
    beq_iff.mpr ⟨Double.beq_symm hre, Double.beq_symm him⟩
  trans h h' :=
    have ⟨hre, him⟩ := beq_iff.mp h
    have ⟨hre', him'⟩ := beq_iff.mp h'
    beq_iff.mpr ⟨Double.beq_trans hre hre', Double.beq_trans him him'⟩
  one_beq_one := by decide +kernel

instance : LawfulMagnitude ComplexDouble where
  magnitude_congr h :=
    have ⟨hre, him⟩ := beq_iff.mp h
    Double.hypot_congr hre him

/-- Numbers with finite parts are finite. -/
theorem isFinite_of_parts {z : ComplexDouble} (hre : z.re.isFinite = true)
    (him : z.im.isFinite = true) : Scalar.IsFinite z := by
  refine beq_iff.mpr ⟨?_, ?_⟩
  · obtain ⟨s, hs⟩ := Double.unpack_zero_mul him
    change (1 * z.re - 0 * z.im == z.re) = true
    rw [Double.one_mul_eq hre]
    exact Double.sub_zero_beq hre hs
  · obtain ⟨s, hs⟩ := Double.unpack_zero_mul hre
    change (1 * z.im + 0 * z.re == z.im) = true
    rw [Double.one_mul_eq him]
    exact Double.add_zero_beq him hs

end ComplexDouble

namespace Coeff

theorem partBits_of_beq {x y : Double} (h : (x == y) = true) : partBits x = partBits y := by
  unfold partBits
  by_cases hx : (x == 0) = true
  · rw [if_pos hx, if_pos (Double.beq_trans (Double.beq_symm h) hx)]
  · have hy : ¬ (y == 0) = true := fun hy => hx (Double.beq_trans h hy)
    rw [if_neg hx, if_neg hy, Double.bits_of_beq h (Bool.eq_false_iff.mpr hx)]

theorem feed_of_beq {e e' : Coeff ComplexDouble} (h : (e == e') = true) (d : Digest) :
    e.feed d = e'.feed d := by
  induction e generalizing e' d with
  | lit z =>
    obtain ⟨w, rfl, hzw⟩ := lit_beq.mp h
    obtain ⟨hre, him⟩ := ComplexDouble.beq_iff.mp hzw
    simp only [feed, partBits_of_beq hre, partBits_of_beq him]
  | var => rw [var_beq.mp h]
  | raw => rw [raw_beq.mp h]
  | neg a ih =>
    obtain ⟨_, rfl, ha⟩ := neg_beq.mp h
    exact ih ha _
  | app f a ih =>
    obtain ⟨_, rfl, ha⟩ := app_beq.mp h
    exact ih ha _
  | bin op a b iha ihb =>
    have hrank := rank_of_beq h
    obtain ⟨_, _, rfl, ha, hb⟩ := bin_beq.mp h
    simp only [feed, hrank, iha ha, ihb hb]

instance : LawfulOrderKey ComplexDouble where
  key_congr h := congrArg (fun d : Digest => d.finish.toNat) (feed_of_beq h .empty)

end Coeff

end SpinBoson
