import Mathlib
import SpinBoson.Scalar.Double

/-!
Finite doubles by their sign, exponent and fraction: what changing the sign does to the bits, to
comparisons and to the magnitude that is written.
-/
namespace SpinBoson.Double

open Float.Model UnpackedFloat

/-- The double with these bits: a sign, an exponent and a fraction. -/
def ofFields (s : Sign) (e : BitVec 11) (m : BitVec 52) : Double :=
  ⟨⟨packComponents .binary64 s e m⟩⟩

/-! Bits and their fields -/

theorem toNat_append {v w : Nat} (x : BitVec v) (y : BitVec w) :
    (x ++ y).toNat = x.toNat * 2 ^ w + y.toNat := by
  rw [BitVec.toNat_append, Nat.shiftLeft_eq, Nat.mul_comm, Nat.two_pow_add_eq_or_of_lt y.isLt]

theorem toNat_packComponents (s : Sign) (e : BitVec 11) (m : BitVec 52) :
    (packComponents .binary64 s e m).toNat =
      (s.toBitVec.toNat * 2 ^ 11 + e.toNat) * 2 ^ 52 + m.toNat := by
  rw [packComponents, toNat_append, toNat_append]

theorem signBit_ofFields (s : Sign) (e : BitVec 11) (m : BitVec 52) :
    (ofFields s e m).signBit = (s == .negative) := by
  have h := toNat_packComponents s e m
  have he := e.isLt
  have hm := m.isLt
  have : ((ofFields s e m).bits >>> 63).toNat = s.toBitVec.toNat := by
    rw [UInt64.toNat_shiftRight]
    change (packComponents .binary64 s e m).toNat >>> 63 = _
    rw [Nat.shiftRight_eq_div_pow, h]
    omega
  rw [signBit]
  simp only [← UInt64.toNat_inj, this]
  cases s <;> rfl

theorem exponent_ofFields (s : Sign) (e : BitVec 11) (m : BitVec 52) :
    (((ofFields s e m).bits >>> 52) &&& 0x7ff).toNat = e.toNat := by
  have he := e.isLt
  have hm := m.isLt
  rw [UInt64.toNat_and, UInt64.toNat_shiftRight]
  change ((packComponents .binary64 s e m).toNat >>> 52) &&& (2 ^ 11 - 1) = _
  rw [Nat.and_two_pow_sub_one_eq_mod, Nat.shiftRight_eq_div_pow, toNat_packComponents]
  omega

theorem fraction_ofFields (s : Sign) (e : BitVec 11) (m : BitVec 52) :
    ((ofFields s e m).bits &&& 0xfffffffffffff).toNat = m.toNat := by
  have hm := m.isLt
  rw [UInt64.toNat_and]
  change (packComponents .binary64 s e m).toNat &&& (2 ^ 52 - 1) = _
  rw [Nat.and_two_pow_sub_one_eq_mod, toNat_packComponents]
  omega

theorem unpackSign_packComponents (s : Sign) (e : BitVec 11) (m : BitVec 52) :
    Sign.ofBitVec (unpackSign (packComponents .binary64 s e m)) = s := by
  have : unpackSign (packComponents .binary64 s e m) = s.toBitVec := by
    apply BitVec.eq_of_toNat_eq
    have := toNat_packComponents s e m
    have he := e.isLt
    have hm := m.isLt
    simp [unpackSign, Nat.shiftRight_eq_div_pow, this]
    omega
  rw [this]
  cases s <;> rfl

/-! What the bits stand for -/

/-- The value of a finite double. -/
def value (s : Sign) (e : BitVec 11) (m : BitVec 52) : UnpackedFloat :=
  if e = 0#11 then
    if h : m.toNat = 0 then .zero s else .finite s m.toNat (-1074) (Nat.pos_of_ne_zero h)
  else .finite s (2 ^ 52 + m.toNat) (e.toNat - 1075) (by omega)

theorem unpack_packComponents (s : Sign) {e : BitVec 11} (he : e ≠ -1#11) (m : BitVec 52) :
    unpack .binary64 (packComponents .binary64 s e m) = value s e m := by
  have hm : m = 0#52 ↔ m.toNat = 0 := by
    rw [← BitVec.toNat_inj]
    rfl
  unfold UnpackedFloat.unpack value
  simp only [unpackMantissa_packComponents, unpackExponent_packComponents,
    unpackSign_packComponents, he, if_false]
  by_cases hzero : e = 0#11
  · subst hzero
    simp only [hm, BitVec.toNat_zero]
    rfl
  · simp only [if_neg hzero, toNat_append]
    rfl

theorem toNat_lt_of_ne {e : BitVec 11} (he : e ≠ -1#11) : e.toNat < 2047 := by
  have := e.isLt
  have : e.toNat ≠ 2047 := fun h => he (BitVec.eq_of_toNat_eq h)
  omega

theorem pack_value (s : Sign) {e : BitVec 11} (he : e ≠ -1#11) (m : BitVec 52) :
    pack .binary64 (value s e m) = packComponents .binary64 s e m := by
  have hlt := toNat_lt_of_ne he
  have hm := m.isLt
  have hbits : Format.binary64.mantissaBits = 53 := rfl
  have hbias : Format.binary64.exponentBias = 1023 := by decide
  unfold value
  by_cases hzero : e = 0#11
  · subst hzero
    rw [if_pos rfl]
    by_cases h : m.toNat = 0
    · obtain rfl : m = 0 := BitVec.eq_of_toNat_eq h
      rfl
    · have hlog : m.toNat.log2 + 1 ≠ 53 := by
        have := (Nat.log2_lt h).mpr hm
        omega
      rw [dif_neg h]
      unfold UnpackedFloat.pack
      dsimp only
      rw [if_neg (by decide), hbits, if_neg hlog, BitVec.ofNat_toNat, BitVec.setWidth_eq]
  · have hlog : (2 ^ 52 + m.toNat).log2 + 1 = 53 := by
      have h1 := (Nat.log2_lt (n := 2 ^ 52 + m.toNat) (k := 53) (by omega)).mpr (by omega)
      have h2 := (Nat.le_log2 (n := 2 ^ 52 + m.toNat) (k := 52) (by omega)).mpr (by omega)
      omega
    rw [if_neg hzero]
    unfold UnpackedFloat.pack
    dsimp only
    have hexponent : ((e.toNat : Int) - 1075 + (Format.binary64.exponentBias : Nat) +
        (52 : Nat)).toNat = e.toNat := by
      omega
    rw [hexponent, if_neg (by omega), if_pos (hlog.trans hbits.symm)]
    congr 1
    · simp
    · apply BitVec.eq_of_toNat_eq
      rw [BitVec.toNat_ofNat]
      omega

theorem exists_ofFields (x : Double) : ∃ s e m, x = ofFields s e m := by
  obtain ⟨⟨b⟩⟩ := x
  have hsign (b : BitVec 1) : (Sign.ofBitVec b).toBitVec = b := by
    revert b
    decide
  refine ⟨.ofBitVec (@unpackSign .binary64 b), @unpackExponent .binary64 b,
    @unpackMantissa .binary64 b, ?_⟩
  rw [ofFields, packComponents, hsign]
  congr 2
  simp only [unpackSign, unpackExponent, unpackMantissa, BitVec.extractLsb, BitVec.cast_eq]
  rw [BitVec.extractLsb'_append_extractLsb'_eq_extractLsb' (by decide),
    BitVec.extractLsb'_append_extractLsb'_eq_extractLsb' (by decide)]
  exact BitVec.extractLsb'_eq_self.symm

theorem neg_ofFields (s : Sign) (e : BitVec 11) (m : BitVec 52) :
    -ofFields s e m = ofFields (-s) e m := by
  change (⟨⟨packComponents .binary64 s e m ^^^ (1#1 ++ 0#11 ++ 0#52)⟩⟩ : Double) = _
  rw [ofFields, packComponents, BitVec.xor_append, BitVec.xor_append, BitVec.xor_zero,
    BitVec.xor_zero]
  cases s <;> rfl

theorem abs_ofFields (s : Sign) (e : BitVec 11) (m : BitVec 52) :
    (ofFields s e m).abs = ofFields .positive e m := by
  change (⟨⟨packComponents .binary64 s e m &&&
    (0#1 ++ BitVec.allOnes 11 ++ BitVec.allOnes 52)⟩⟩ : Double) = _
  rw [ofFields, packComponents, BitVec.and_append, BitVec.and_append, BitVec.and_allOnes,
    BitVec.and_allOnes]
  cases s <;> rfl

section Fields

variable (s : Sign) {e : BitVec 11} (m : BitVec 52)

theorem toBits_ofFields (he : e ≠ -1#11) :
    (ofFields s e m).toFloat.toBits = (ofFields s e m).bits := by
  change (⟨UnpackedFloat.pack .binary64 (UnpackedFloat.unpack .binary64 _)⟩ : UInt64) = _
  rw [ofFields, unpack_packComponents s he, pack_value s he]

theorem unpack_ofFields (he : e ≠ -1#11) :
    (ofFields s e m).toFloat.toModel.unpack = value s e m := by
  change UnpackedFloat.unpack .binary64 (ofFields s e m).toFloat.toBits.toBitVec = _
  rw [toBits_ofFields s m he]
  exact unpack_packComponents s he m

theorem isFinite_ofFields : (ofFields s e m).isFinite = true ↔ e ≠ -1#11 := by
  constructor
  · rintro h rfl
    change (UnpackedFloat.unpack .binary64 (UnpackedFloat.pack .binary64
      (UnpackedFloat.unpack .binary64 (packComponents .binary64 s (-1#11) m)))).isFinite = true at h
    have hvalue : UnpackedFloat.unpack .binary64 (packComponents .binary64 s (-1#11) m) =
        .infinity s ∨ UnpackedFloat.unpack .binary64 (packComponents .binary64 s (-1#11) m) =
          .notANumber := by
      unfold UnpackedFloat.unpack
      simp only [unpackMantissa_packComponents, unpackExponent_packComponents,
        unpackSign_packComponents, if_true]
      split
      · exact .inl rfl
      · exact .inr rfl
    rcases hvalue with hvalue | hvalue
    · rw [hvalue] at h
      revert h
      cases s <;> decide
    · rw [hvalue] at h
      revert h
      decide
  · intro he
    change (ofFields s e m).toFloat.toModel.unpack.isFinite = true
    rw [unpack_ofFields s m he, value]
    split
    · split <;> rfl
    · rfl

/-- The magnitude does not depend on the sign. -/
theorem ofFloat_ofFields (he : e ≠ -1#11) : BinaryFraction.ofFloat (ofFields s e m).toFloat =
    if e.toNat = 0 then ⟨m.toNat, -1074, false⟩
    else ⟨2 ^ 52 + m.toNat, (e.toNat : Int) - 1075, m.toNat = 0 ∧ 1 < e.toNat⟩ := by
  unfold BinaryFraction.ofFloat
  rw [toBits_ofFields s m he]
  simp only [exponent_ofFields, fraction_ofFields]
  rfl

theorem float_signBit_ofFields (he : e ≠ -1#11) :
    SpinBoson.signBit (ofFields s e m).toFloat = (s == .negative) := by
  rw [SpinBoson.signBit, toBits_ofFields s m he]
  exact signBit_ofFields s e m

theorem neg_value : (value s e m).neg = value (-s) e m := by
  unfold value
  split
  · split <;> rfl
  · rfl

end Fields

section Finite

variable {x y : Double}

/-! Comparisons -/

theorem zero_unpack : (0 : Double).toFloat.toModel.unpack = .zero .positive := by
  rfl

theorem limit_unpack : (18446744073709551616 : Double).toFloat.toModel.unpack =
    .finite .positive (2 ^ 52) 12 (by decide) := by
  rfl

theorem exists_of_isFinite (h : x.isFinite = true) :
    ∃ s e m, x = ofFields s e m ∧ e ≠ -1#11 := by
  obtain ⟨s, e, m, rfl⟩ := x.exists_ofFields
  exact ⟨s, e, m, rfl, (isFinite_ofFields s m).mp h⟩

theorem beq_iff : (x == y) = true ↔
    x.toFloat.toModel.unpack.compare y.toFloat.toModel.unpack = some .eq := by
  change (x.toFloat.toModel.unpack.compare y.toFloat.toModel.unpack == some .eq) = true ↔ _
  exact beq_iff_eq

theorem lt_iff : x < y ↔
    x.toFloat.toModel.unpack.compare y.toFloat.toModel.unpack = some .lt := by
  change decide ((x.toFloat.toModel.unpack.compare y.toFloat.toModel.unpack == some .lt) = true) =
    true ↔ _
  rw [decide_eq_true_iff, beq_iff_eq]

/-- Values that compare equal are the same value, or zeros. -/
theorem eq_of_compare {a b : UnpackedFloat} (h : a.compare b = some .eq) :
    a = b ∨ ∃ s s', a = .zero s ∧ b = .zero s' := by
  cases a with
  | notANumber => cases b <;> cases h
  | infinity s =>
    cases b with
    | infinity s' => cases s <;> cases s' <;> first | exact .inl rfl | cases h
    | notANumber | zero | finite => cases s <;> cases h
  | zero s =>
    cases b with
    | infinity s' | finite s' => cases s' <;> cases h
    | notANumber => cases h
    | zero s' => exact .inr ⟨s, s', rfl, rfl⟩
  | finite s m e hm =>
    cases b with
    | infinity s' => cases s <;> cases s' <;> cases h
    | notANumber => cases s <;> cases h
    | zero s' => cases s <;> cases h
    | finite s' m' e' hm' =>
      cases s <;> cases s' <;> simp [UnpackedFloat.compare, Ordering.then_eq_eq] at h ⊢ <;> grind

theorem compare_self {a : UnpackedFloat} (h : a ≠ .notANumber) : a.compare a = some .eq := by
  cases a with
  | notANumber => exact absurd rfl h
  | infinity s => cases s <;> rfl
  | zero s => rfl
  | finite s m e hm =>
    cases s <;> simp [UnpackedFloat.compare]

theorem isFinite_of_beq (hy : y.isFinite = true) (h : (x == y) = true) : x.isFinite = true := by
  change x.toFloat.toModel.unpack.isFinite = true
  rcases eq_of_compare (beq_iff.mp h) with heq | ⟨s, s', hx, -⟩
  · rwa [heq]
  · rw [hx]
    rfl

theorem exists_unpack (hx : x.isFinite = true) :
    (∃ s, x.toFloat.toModel.unpack = .zero s) ∨
      ∃ s m e hm, x.toFloat.toModel.unpack = .finite s m e hm := by
  change x.toFloat.toModel.unpack.isFinite = true at hx
  cases h : x.toFloat.toModel.unpack with
  | notANumber | infinity =>
    rw [h] at hx
    cases hx
  | zero s => exact .inl ⟨s, rfl⟩
  | finite s m e hm => exact .inr ⟨s, m, e, hm, rfl⟩

theorem isNaN_eq_false (hx : x.isFinite = true) : x.toFloat.isNaN = false := by
  change x.toFloat.toModel.unpack.isNaN = false
  rcases exists_unpack hx with ⟨s, h⟩ | ⟨s, m, e, hm, h⟩ <;> rw [h] <;> rfl

theorem isInf_eq_false (hx : x.isFinite = true) : x.toFloat.isInf = false := by
  change x.toFloat.toModel.unpack.isInf = false
  rcases exists_unpack hx with ⟨s, h⟩ | ⟨s, m, e, hm, h⟩ <;> rw [h] <;> rfl

theorem float_signBit (hx : x.isFinite = true) : SpinBoson.signBit x.toFloat = x.signBit := by
  obtain ⟨s, e, m, rfl, he⟩ := exists_of_isFinite hx
  rw [float_signBit_ofFields s m he, signBit_ofFields]

theorem isFinite_abs (hx : x.isFinite = true) : x.abs.isFinite = true := by
  obtain ⟨s, e, m, rfl, he⟩ := exists_of_isFinite hx
  rw [abs_ofFields]
  exact (isFinite_ofFields _ m).mpr he

theorem ofFloat_abs (hx : x.isFinite = true) :
    BinaryFraction.ofFloat x.abs.toFloat = BinaryFraction.ofFloat x.toFloat := by
  obtain ⟨s, e, m, rfl, he⟩ := exists_of_isFinite hx
  rw [abs_ofFields, ofFloat_ofFields _ m he, ofFloat_ofFields _ m he]

theorem signBit_abs (x : Double) : x.abs.signBit = false := by
  obtain ⟨s, e, m, rfl⟩ := x.exists_ofFields
  rw [abs_ofFields, signBit_ofFields]
  rfl

theorem abs_eq_self (h : x.signBit = false) : x.abs = x := by
  obtain ⟨s, e, m, rfl⟩ := x.exists_ofFields
  rw [signBit_ofFields] at h
  cases s with
  | negative => cases h
  | positive => exact abs_ofFields _ e m

theorem abs_eq_neg (h : x.signBit = true) : x.abs = -x := by
  obtain ⟨s, e, m, rfl⟩ := x.exists_ofFields
  rw [signBit_ofFields] at h
  cases s with
  | negative =>
    rw [abs_ofFields, neg_ofFields]
    rfl
  | positive => cases h

theorem neg_abs (h : x.signBit = true) : -x.abs = x := by
  obtain ⟨s, e, m, rfl⟩ := x.exists_ofFields
  rw [signBit_ofFields] at h
  cases s with
  | negative =>
    rw [abs_ofFields, neg_ofFields]
    rfl
  | positive => cases h

theorem unpack_neg (hx : x.isFinite = true) :
    (-x).toFloat.toModel.unpack = x.toFloat.toModel.unpack.neg := by
  obtain ⟨s, e, m, rfl, he⟩ := exists_of_isFinite hx
  rw [neg_ofFields, unpack_ofFields _ m he, unpack_ofFields _ m he, neg_value]

theorem neg_beq_neg (hy : y.isFinite = true) (h : (x == y) = true) : (-x == -y) = true := by
  have hx := isFinite_of_beq hy h
  rw [beq_iff, unpack_neg hx, unpack_neg hy]
  rcases eq_of_compare (beq_iff.mp h) with heq | ⟨s, s', hx, hy⟩
  · rw [heq]
    refine compare_self fun hnan => ?_
    rcases exists_unpack hy with ⟨s, h⟩ | ⟨s, m, e, hm, h⟩ <;> rw [h] at hnan <;> cases hnan
  · rw [hx, hy]
    rfl

/-- A zero equals the zeros of both signs. -/
theorem zero_beq (h : (x == 0) = true) : (0 == x) = true ∧ (-0 == x) = true := by
  have hneg : (-0 : Double).toFloat.toModel.unpack = .zero .negative := rfl
  rw [beq_iff, zero_unpack] at h
  rw [beq_iff, beq_iff, zero_unpack, hneg]
  rcases eq_of_compare h with hx | ⟨s, -, hx, -⟩
  · rw [hx]
    exact ⟨rfl, rfl⟩
  · rw [hx]
    exact ⟨rfl, rfl⟩

theorem signBit_of_lt_zero (hx : x.isFinite = true) (h : x < 0) : x.signBit = true := by
  obtain ⟨s, e, m, rfl, he⟩ := exists_of_isFinite hx
  rw [lt_iff, zero_unpack, unpack_ofFields _ m he, value] at h
  rw [signBit_ofFields]
  cases s with
  | negative => rfl
  | positive =>
    split at h
    · split at h <;> cases h
    · cases h

/-- The whole part of what is below a power of two is below it. -/
theorem floor_lt (hx : x.isFinite = true) (h : x.abs < 18446744073709551616) :
    (BinaryFraction.ofFloat x.toFloat).floor < 2 ^ 64 := by
  obtain ⟨s, e, m, rfl, he⟩ := exists_of_isFinite hx
  have hm := m.isLt
  rw [lt_iff, abs_ofFields, limit_unpack, unpack_ofFields _ m he, value] at h
  rw [ofFloat_ofFields s m he, BinaryFraction.floor]
  by_cases hzero : e.toNat = 0
  · rw [if_pos hzero]
    dsimp only
    rw [if_neg (by decide)]
    exact Nat.lt_of_le_of_lt (Nat.div_le_self _ _) (by omega)
  · have hne : e ≠ 0#11 := fun heq => hzero (by rw [heq]; rfl)
    rw [if_neg hne] at h
    have hexponent : (e.toNat : Int) - 1075 < 12 := by
      simp only [UnpackedFloat.compare, Option.some.injEq, Ordering.then_eq_lt,
        Int.compare_eq_lt, Int.compare_eq_eq, Nat.compare_eq_lt] at h
      omega
    rw [if_neg hzero]
    dsimp only
    split
    · next hle =>
      have hpower : 2 ^ ((e.toNat : Int) - 1075).natAbs ≤ 2 ^ 11 :=
        Nat.pow_le_pow_right (by decide) (by omega)
      calc (2 ^ 52 + m.toNat) * 2 ^ ((e.toNat : Int) - 1075).natAbs
          ≤ (2 ^ 52 + m.toNat) * 2 ^ 11 := Nat.mul_le_mul_left _ hpower
        _ < 2 ^ 64 := by omega
    · exact Nat.lt_of_le_of_lt (Nat.div_le_self _ _) (by omega)

end Finite

end SpinBoson.Double
