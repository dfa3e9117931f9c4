import SpinBoson.Coeff.Token
import SpinBoson.Proofs.Doubles

/-!
The numerals that are written for doubles: what they are read as, and that those without a point
stay below the largest whole number that is read.
-/
namespace SpinBoson

/-- What stops a predicate ends the longest part that satisfies it. -/
theorem takeWhile_append_of_stop {α : Type} {p : α → Bool} {as rest : List α}
    (has : ∀ a ∈ as, p a = true) (hrest : ∀ a ∈ rest.head?, p a = false) :
    (as ++ rest).takeWhile p = as := by
  rw [List.takeWhile_append_of_pos has]
  cases rest with
  | nil => exact List.append_nil as
  | cons a rest => rw [List.takeWhile_cons_of_neg (by simp [hrest a rfl]), List.append_nil]

/-- Whether no numeral or word goes on with these characters. -/
def Token.Boundary (cs : List Char) : Prop :=
  ∀ c ∈ cs.head?, Token.isWordChar c = false ∧ c ≠ '.'

namespace Decimal

/-- The decimal that a numeral denotes as it is written, without a positive exponent. -/
def written (d : Decimal) : Decimal :=
  if 0 ≤ d.exponent then .ofNat (d.digits * 10 ^ d.exponent.natAbs) else d

/-- The token that a numeral is read as. -/
def token (d : Decimal) : Token :=
  if 0 ≤ d.exponent then .int (d.digits * 10 ^ d.exponent.natAbs) else .float d

theorem ofDigits_toDigits (n : Nat) : ofDigits (Nat.toDigits 10 n) = n :=
  Nat.ofDigitChars_ten_toDigits

theorem ofDigits_zeros_append (n : Nat) (cs : List Char) :
    ofDigits (List.replicate n '0' ++ cs) = ofDigits cs := by
  have h : Nat.ofDigitChars 10 (List.replicate n '0') 0 = 0 := Nat.ofDigitChars_replicate_zero
  change Nat.ofDigitChars 10 (List.replicate n '0' ++ cs) 0 = _
  rw [Nat.ofDigitChars_append, h]
  rfl

theorem ofDigits_append_zeros (n : Nat) (cs : List Char) :
    ofDigits (cs ++ List.replicate n '0') = ofDigits cs * 10 ^ n := by
  change Nat.ofDigitChars 10 (cs ++ List.replicate n '0') 0 = _
  rw [Nat.ofDigitChars_append, Nat.ofDigitChars_replicate_zero, Nat.mul_comm]
  rfl

/-- Digits with zeros behind them are a multiple of a power of ten; zero is written once. -/
theorem ofDigits_scaled (n k : Nat) :
    ofDigits (if n = 0 then Nat.toDigits 10 n
      else Nat.toDigits 10 n ++ List.replicate k '0') = n * 10 ^ k := by
  split
  · next hzero => rw [ofDigits_toDigits, hzero, Nat.zero_mul]
  · rw [ofDigits_append_zeros, ofDigits_toDigits]

theorem isDigit_of_mem_toDigits {n : Nat} {c : Char} (h : c ∈ Nat.toDigits 10 n) :
    c.isDigit = true :=
  Nat.isDigit_of_mem_toDigits (by decide) (by decide) h

/-- A numeral begins with a digit. -/
theorem exists_positional (d : Decimal) :
    ∃ c cs, d.positional.toList = c :: cs ∧ c.isDigit = true := by
  obtain ⟨c, cs, hcs⟩ := List.exists_cons_of_ne_nil (Nat.toDigits_ne_nil (b := 10) (n := d.digits))
  have hc : c.isDigit = true := isDigit_of_mem_toDigits (n := d.digits) (hcs ▸ List.mem_cons_self)
  unfold positional
  dsimp only
  rw [hcs]
  split
  · rw [String.toList_ofList]
    split
    · exact ⟨c, _, rfl, hc⟩
    · exact ⟨c, _, rfl, hc⟩
  · split
    · next hlength =>
      rw [String.toList_ofList]
      obtain ⟨n, hn⟩ := Nat.exists_eq_add_one_of_ne_zero (Nat.sub_ne_zero_of_lt hlength)
      rw [hn]
      exact ⟨c, _, rfl, hc⟩
    · rw [String.toList_ofList]
      exact ⟨'0', _, rfl, rfl⟩

end Decimal

namespace Token

variable {c : Char} {rest : List Char}

theorem isWordChar_of_isWordStart (h : isWordStart c = true) : isWordChar c = true := by
  simp only [isWordStart, isWordChar, Char.isAlphanum, Bool.or_eq_true] at h ⊢
  exact h.imp_left .inl

theorem isBlank_of_isWordChar (h : isWordChar c = true) : isBlank c = false := by
  cases hblank : isBlank c with
  | false => rfl
  | true =>
    simp only [isBlank, Bool.or_eq_true, decide_eq_true_iff] at hblank
    rcases hblank with ((rfl | rfl) | rfl) | rfl <;> revert h <;> decide

theorem isWordChar_of_isDigit (h : c.isDigit = true) : isWordChar c = true := by
  simp [isWordChar, Char.isAlphanum, h]

theorem isWordStart_of_isDigit (h : c.isDigit = true) : isWordStart c = false := by
  simp only [Char.isDigit, Bool.and_eq_true, decide_eq_true_iff, ge_iff_le,
    UInt32.le_iff_toNat_le] at h
  simp only [isWordStart, Char.isAlpha, Char.isUpper, Char.isLower, Bool.or_eq_false_iff,
    Bool.and_eq_false_iff, decide_eq_false_iff_not, ge_iff_le, UInt32.le_iff_toNat_le]
  refine ⟨?_, ?_⟩
  · simp at h ⊢
    omega
  · rintro rfl
    revert h
    decide

/-- A digit begins a number. -/
theorem first_of_isDigit (h : c.isDigit = true) (rest : List Char) :
    first c rest = number (c :: rest) := by
  simp only [first, isWordStart_of_isDigit h, h, Bool.true_or, if_true, Bool.false_eq_true,
    if_false]

theorem Boundary.not_isDigit (h : Boundary rest) : ∀ c ∈ rest.head?, c.isDigit = false := by
  intro c hc
  have := (h c hc).1
  simp only [isWordChar, Char.isAlphanum, Bool.or_eq_false_iff] at this
  exact this.1.2

theorem Boundary.exponent? (h : Boundary rest) : Decimal.exponent? rest = none := by
  cases rest with
  | nil => rfl
  | cons c rest =>
    have hc := (h c rfl).1
    rw [Decimal.exponent?]
    refine if_neg ?_
    rintro (rfl | rfl) <;> revert hc <;> decide

/-- A numeral without a point is a whole number. -/
theorem number_whole {digits : List Char} (hdigits : ∀ c ∈ digits, c.isDigit = true)
    (hne : digits ≠ []) (hmax : Decimal.ofDigits digits ≤ maxInt) (hrest : Boundary rest) :
    number (digits ++ rest) = (some (int (Decimal.ofDigits digits)), digits.length) := by
  unfold number
  simp only [takeWhile_append_of_stop hdigits hrest.not_isDigit, List.drop_left, if_neg hne]
  split
  · next tail => exact absurd rfl (hrest _ rfl).2
  · rw [hrest.exponent?]
    simp only [if_pos hmax]

/-- A numeral with a point scales its digits by how many stand behind the point. -/
theorem number_fraction {d : Decimal} {whole fraction : List Char}
    (hwhole : ∀ c ∈ whole, c.isDigit = true) (hne : whole ≠ [])
    (hfraction : ∀ c ∈ fraction, c.isDigit = true)
    (hdigits : Decimal.ofDigits (whole ++ fraction) = d.digits)
    (hexponent : d.exponent = -fraction.length) (hrest : Boundary rest) :
    number (whole ++ '.' :: fraction ++ rest) =
      (some (float d), (whole ++ '.' :: fraction).length) := by
  have hpoint : ∀ c ∈ ('.' :: (fraction ++ rest)).head?, c.isDigit = false := by
    rintro c ⟨⟩
    rfl
  have hparts : Decimal.ofParts whole fraction 0 = d := by
    rw [Decimal.ofParts, hdigits, Int.zero_sub, ← hexponent]
  unfold number
  simp only [List.append_assoc, List.cons_append, takeWhile_append_of_stop hwhole hpoint,
    List.drop_left, takeWhile_append_of_stop hfraction hrest.not_isDigit, hne, false_and, if_false,
    hrest.exponent?, Option.getD_none, hparts, List.length_append, List.length_cons]
  rw [Nat.add_zero, Nat.add_assoc, Nat.add_comm 1]

/-- A numeral is read as the number that it was written for. -/
theorem number_positional {d : Decimal}
    (hmax : 0 ≤ d.exponent → d.digits * 10 ^ d.exponent.natAbs ≤ maxInt) (hrest : Boundary rest) :
    number (d.positional.toList ++ rest) = (some d.token, d.positional.toList.length) := by
  have hdigits : ∀ c ∈ Nat.toDigits 10 d.digits, c.isDigit = true := fun c =>
    Decimal.isDigit_of_mem_toDigits
  have hzeros (n : Nat) : ∀ c ∈ List.replicate n '0', c.isDigit = true := fun c hc =>
    (List.eq_of_mem_replicate hc) ▸ rfl
  unfold Decimal.positional Decimal.token
  by_cases hexponent : 0 ≤ d.exponent
  · have hvalue := Decimal.ofDigits_scaled d.digits d.exponent.natAbs
    simp only [if_pos hexponent, String.toList_ofList]
    rw [number_whole _ _ (hvalue ▸ hmax hexponent) hrest, hvalue]
    · split
      · exact hdigits
      · exact List.forall_mem_append.mpr ⟨hdigits, hzeros _⟩
    · split
      · exact Nat.toDigits_ne_nil
      · exact List.append_ne_nil_of_left_ne_nil Nat.toDigits_ne_nil _
  · have hscale : d.exponent = -(d.exponent.natAbs : Int) := by omega
    simp only [if_neg hexponent]
    by_cases hlength : d.exponent.natAbs < (Nat.toDigits 10 d.digits).length
    · simp only [if_pos hlength, String.toList_ofList]
      refine number_fraction (fun c hc => hdigits c (List.mem_of_mem_take hc)) ?_
        (fun c hc => hdigits c (List.mem_of_mem_drop hc)) ?_ ?_ hrest
      · exact List.ne_nil_of_length_pos (by rw [List.length_take]; omega)
      · rw [List.take_append_drop, Decimal.ofDigits_toDigits]
      · rw [List.length_drop]
        omega
    · simp only [if_neg hlength, String.toList_ofList]
      refine number_fraction (hzeros 1) (List.cons_ne_nil _ _)
        (List.forall_mem_append.mpr ⟨hzeros _, hdigits⟩) ?_ ?_ hrest
      · rw [Decimal.ofDigits_zeros_append, Decimal.ofDigits_zeros_append,
          Decimal.ofDigits_toDigits]
      · rw [List.length_append, List.length_replicate]
        omega

end Token

/-! The numeral of a double -/

namespace Decimal

/-- Zeros at the end are counted in the exponent. -/
theorem trim_go (n : Nat) (d : Decimal) : ∃ k : Nat,
    (trim.go n d).exponent = d.exponent + k ∧ d.digits = (trim.go n d).digits * 10 ^ k := by
  induction n generalizing d with
  | zero => exact ⟨0, (Int.add_zero _).symm, (Nat.mul_one _).symm⟩
  | succ n ih =>
    rw [trim.go]
    split
    · next h =>
      obtain ⟨k, hexponent, hdigits⟩ := ih ⟨d.digits / 10, d.exponent + 1⟩
      refine ⟨k + 1, by rw [hexponent]; dsimp only; omega, ?_⟩
      dsimp only at hdigits
      rw [Nat.pow_succ, ← Nat.mul_assoc, ← hdigits]
      omega
    · exact ⟨0, (Int.add_zero _).symm, (Nat.mul_one _).symm⟩

end Decimal

namespace BinaryFraction

variable {x : BinaryFraction}

/-- A decimal is taken only if it reads back. -/
theorem readsBack_nearest? {tie : Tie} {unit : Int} {d : Decimal}
    (h : x.nearest? tie unit = some d) : d.exponent = unit ∧ x.readsBack unit d.digits = true := by
  have taken (ns : Nat × Nat) (h : (if x.readsBack unit ns.1 then some (⟨ns.1, unit⟩ : Decimal)
      else if x.readsBack unit ns.2 then some ⟨ns.2, unit⟩ else none) = some d) :
      d.exponent = unit ∧ x.readsBack unit d.digits = true := by
    split at h
    · next hfirst =>
      cases h
      exact ⟨rfl, hfirst⟩
    · split at h
      · next hsecond =>
        cases h
        exact ⟨rfl, hsecond⟩
      · cases h
  exact taken _ h

/-- What reads back is less than half a unit of the last place too large. -/
theorem readsBack_le {unit : Int} {n : Nat} (h : x.readsBack unit n = true) :
    4 * n * (x.quotient unit).2 ≤ (4 * x.mantissa + 2) * (x.quotient unit).1 := by
  unfold readsBack at h
  dsimp only at h
  split at h
  · exact (of_decide_eq_true h).2
  · exact Nat.le_of_lt (of_decide_eq_true h).2

theorem shortest_eq (tie : Tie) (x : BinaryFraction) : x.shortest tie = ⟨0, 0⟩ ∨
    x.mantissa ≠ 0 ∧
      ∃ unit n, x.readsBack unit n = true ∧ x.shortest tie = Decimal.trim ⟨n, unit⟩ := by
  unfold shortest
  split
  · exact .inl rfl
  · next hne =>
    dsimp only
    cases h : ((List.range 17).map fun n : Nat => x.leadingExponent - n).findSome?
        (x.nearest? tie) with
    | none => exact .inl rfl
    | some d =>
      obtain ⟨unit, -, hd⟩ := List.exists_of_findSome?_eq_some h
      obtain ⟨rfl, hback⟩ := readsBack_nearest? hd
      exact .inr ⟨hne, _, _, hback, rfl⟩

/-- What is at most half a unit of the last place larger is below the same powers of two. -/
theorem lt_of_floor_lt {k n : Nat} (hne : x.mantissa ≠ 0) (h : x.floor < 2 ^ k)
    (hn : 4 * n * 2 ^ (-x.exponent).toNat ≤ (4 * x.mantissa + 2) * 2 ^ x.exponent.toNat) :
    n < 2 ^ k := by
  rw [floor] at h
  by_cases hexponent : 0 ≤ x.exponent
  · have hneg : (-x.exponent).toNat = 0 := by omega
    have hpos : x.exponent.toNat = x.exponent.natAbs := by omega
    rw [if_pos hexponent] at h
    rw [hneg, hpos, Nat.pow_zero, Nat.mul_one] at hn
    generalize x.exponent.natAbs = a at h hn
    change x.mantissa * 2 ^ a < 2 ^ k at h
    -- the last place of a magnitude below a power of two divides this power
    have ha : a < k := by
      refine (Nat.pow_lt_pow_iff_right (by decide : 1 < 2)).mp (Nat.lt_of_le_of_lt ?_ h)
      exact Nat.le_mul_of_pos_left _ (Nat.pos_of_ne_zero hne)
    have hsplit : 2 ^ k = 2 ^ (k - a) * 2 ^ a := by
      rw [← Nat.pow_add, Nat.sub_add_cancel (Nat.le_of_lt ha)]
    rw [hsplit] at h ⊢
    have hle : (x.mantissa + 1) * 2 ^ a ≤ 2 ^ (k - a) * 2 ^ a :=
      Nat.mul_le_mul_right _ (Nat.lt_of_mul_lt_mul_right h)
    have hpower : 0 < 2 ^ a := Nat.two_pow_pos a
    rw [Nat.add_mul] at hle hn
    rw [Nat.mul_assoc] at hn
    omega
  · have hneg : (-x.exponent).toNat = x.exponent.natAbs := by omega
    have hpos : x.exponent.toNat = 0 := by omega
    rw [if_neg hexponent] at h
    rw [hneg, hpos, Nat.pow_zero, Nat.mul_one, Nat.mul_assoc] at hn
    generalize x.exponent.natAbs = a at h hn
    change x.mantissa / 2 ^ a < 2 ^ k at h
    rw [Nat.div_lt_iff_lt_mul (Nat.two_pow_pos a)] at h
    have hlt : n * 2 ^ a < 2 ^ k * 2 ^ a := by omega
    exact Nat.lt_of_mul_lt_mul_right hlt

/-- A numeral without a point stays below the powers of two that its double is below. -/
theorem shortest_lt {tie : Tie} {k : Nat} (h : x.floor < 2 ^ k)
    (hwhole : 0 ≤ (x.shortest tie).exponent) :
    (x.shortest tie).digits * 10 ^ (x.shortest tie).exponent.natAbs < 2 ^ k := by
  rcases shortest_eq tie x with hzero | ⟨hne, unit, n, hback, htrim⟩
  · rw [hzero, Nat.zero_mul]
    exact Nat.two_pow_pos k
  · obtain ⟨j, hexponent, hdigits⟩ := Decimal.trim_go (Decimal.width n) ⟨n, unit⟩
    rw [htrim] at hwhole ⊢
    change (Decimal.trim ⟨n, unit⟩).exponent = unit + j at hexponent
    change n = (Decimal.trim ⟨n, unit⟩).digits * 10 ^ j at hdigits
    generalize Decimal.trim ⟨n, unit⟩ = d at hwhole hexponent hdigits ⊢
    have hunits : n * 10 ^ unit.toNat = d.digits * 10 ^ d.exponent.natAbs * 10 ^ (-unit).toNat := by
      rw [hdigits, Nat.mul_assoc, Nat.mul_assoc, ← Nat.pow_add, ← Nat.pow_add]
      congr 2
      omega
    have hpower : 0 < 10 ^ (-unit).toNat := Nat.pow_pos (by decide)
    refine lt_of_floor_lt hne h (Nat.le_of_mul_le_mul_right ?_ hpower)
    generalize d.digits * 10 ^ d.exponent.natAbs = v at hunits ⊢
    calc 4 * v * 2 ^ (-x.exponent).toNat * 10 ^ (-unit).toNat
        = 4 * (v * 10 ^ (-unit).toNat) * 2 ^ (-x.exponent).toNat := by ac_rfl
      _ = 4 * n * (2 ^ (-x.exponent).toNat * 10 ^ unit.toNat) := by
        rw [← hunits]
        ac_rfl
      _ ≤ (4 * x.mantissa + 2) * (2 ^ x.exponent.toNat * 10 ^ (-unit).toNat) := readsBack_le hback
      _ = (4 * x.mantissa + 2) * 2 ^ x.exponent.toNat * 10 ^ (-unit).toNat :=
        (Nat.mul_assoc _ _ _).symm

end BinaryFraction

/-! Reading what has been written -/

namespace Double

/-- The numeral that is written for a double, without its sign. -/
def numeral (x : Double) : Decimal :=
  (BinaryFraction.ofFloat x.toFloat).shortest .up

/-- Whether the numeral of a double is read as that double again, up to its sign. -/
def ReadsBack (x : Double) : Prop :=
  ((RealScalar.ofDecimal x.numeral.written : Double) == x.abs) = true

variable {x : Double}

theorem numeral_abs (hx : x.isFinite = true) : x.abs.numeral = x.numeral := by
  rw [numeral, ofFloat_abs hx, numeral]

theorem ReadsBack.abs (hx : x.isFinite = true) (h : x.ReadsBack) : x.abs.ReadsBack := by
  rwa [ReadsBack, numeral_abs hx, abs_eq_self (signBit_abs x)]

theorem floatText_eq (hx : x.isFinite = true) : floatText x.toFloat =
    if x.signBit then "-" ++ x.numeral.positional else x.numeral.positional := by
  rw [floatText, isNaN_eq_false hx, isInf_eq_false hx, float_signBit hx]
  rfl

/-- The numeral of a double below the limit of whole numbers is read as one token. -/
theorem number_numeral (hx : x.isFinite = true) (hlimit : x.abs < 18446744073709551616)
    {rest : List Char} (hrest : Token.Boundary rest) :
    Token.number (x.numeral.positional.toList ++ rest) =
      (some x.numeral.token, x.numeral.positional.toList.length) :=
  Token.number_positional (fun hexponent =>
    Nat.le_pred_of_lt (BinaryFraction.shortest_lt (floor_lt hx hlimit) hexponent)) hrest

end Double

end SpinBoson
