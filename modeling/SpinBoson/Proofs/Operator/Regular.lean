import Mathlib
import SpinBoson.Proofs.Operator.Independence

/-!
The interpretation in which Pauli operators act on Pauli operators by multiplication. All that it
needs of the numbers for coefficients is that a merged coefficient means a product. It separates
keys: a key moves the identity at every qubit to its own Pauli operators.
-/
namespace SpinBoson

variable {κ R ρ : Type} [RealScalar ρ] [Scalar κ ρ] [CommSemiring R]

namespace Pauli

instance : Fintype Pauli where
  elems := ⟨all, by decide⟩
  complete p := by cases p <;> decide

theorem mul_assoc_snd (p q r : Pauli) : (p.mul (q.mul r).2).2 = ((p.mul q).2.mul r).2 := by
  cases p <;> cases q <;> cases r <;> rfl

/-- The phases of a product of three Pauli operators do not depend on how it is associated. -/
theorem value_mul_assoc [ExactRing κ] (p q r : Pauli) :
    ((p.mul (q.mul r).2).1.value * (q.mul r).1.value : κ) =
      (p.mul q).1.value * ((p.mul q).2.mul r).1.value := by
  have hi : (Scalar.imag : κ) * Scalar.imag = -1 := ExactRing.imag_mul_imag
  cases p <;> cases q <;> cases r <;> simp [mul, Phase.value, hi]

/-- Multiplication by a Pauli operator from the left, with a number for each phase. -/
def regular (number : κ → R) (p : Pauli) : Matrix Pauli Pauli R :=
  fun r q => if (p.mul q).2 = r then number (p.mul q).1.value else 0

theorem regular_mul [ExactRing κ] {number : κ → R}
    (hmul : ∀ x y, number (x * y) = number x * number y) (p q : Pauli) :
    p.regular number * q.regular number =
      number (p.mul q).1.value • (p.mul q).2.regular number := by
  ext r t
  simp only [Matrix.mul_apply, Matrix.smul_apply, regular, mul_ite, mul_zero, smul_eq_mul,
    Finset.sum_ite_eq, Finset.mem_univ, if_true, ite_mul, zero_mul, mul_assoc_snd, ← hmul,
    value_mul_assoc]

end Pauli

/-- The raising and lowering operators act as the sums that they stand for. -/
def Spin.regular (number : Coeff κ → R) : Spin → Matrix Pauli Pauli R
  | pauli p => p.regular (number ∘ .lit)
  | raising => number (.ofReal Operator.half) • Pauli.x.regular (number ∘ .lit) +
    number (.lit (Scalar.ofParts 0 Operator.half)) • Pauli.y.regular (number ∘ .lit)
  | lowering => number (.ofReal Operator.half) • Pauli.x.regular (number ∘ .lit) +
    number (.lit (Scalar.ofParts 0 (-Operator.half))) • Pauli.y.regular (number ∘ .lit)

variable [ExactRing κ] {number : Coeff κ → R}

/-- Any numbers for coefficients with which merging means multiplying. -/
def Interpretation.regular (number : Coeff κ → R) (hone : number (.lit 1) = 1)
    (hmerge : ∀ c d, number (Operator.mergeCoeffs c d) = number c * number d) :
    Interpretation κ Pauli R where
  Defined _ := True
  number := number
  matrix := Spin.regular number
  defined_lit _ := trivial
  number_one := hone
  merge _ _ := ⟨trivial, hmerge _ _⟩
  matrix_mul := Pauli.regular_mul fun x y => hmerge (.lit x) (.lit y)
  matrix_raising := rfl
  matrix_lowering := rfl

/-! Pauli operators at qubits -/

/-- Pauli operators at qubits one after the other, and the identity at all others. -/
def placed : ℕ → List Pauli → ℕ → Pauli
  | _, [] => fun _ => .i
  | start, p :: ps => Function.update (placed (start + 1) ps) start p

theorem placed_of_lt {start k : ℕ} (h : k < start) (ps : List Pauli) : placed start ps k = .i := by
  induction ps generalizing start with
  | nil => rfl
  | cons p ps ih =>
    rw [placed, Function.update_of_ne (Nat.ne_of_lt h), ih (Nat.lt_succ_of_lt h)]

theorem placed_injective {start : ℕ} {ps qs : List Pauli} (hlength : ps.length = qs.length)
    (h : placed start ps = placed start qs) : ps = qs := by
  induction ps generalizing start qs with
  | nil => exact (List.length_eq_zero_iff.mp hlength.symm).symm
  | cons p ps ih =>
    match qs with
    | [] => cases hlength
    | q :: qs =>
      have hhead : p = q := by simpa [placed] using congrFun h start
      have htail : placed (start + 1) ps = placed (start + 1) qs := by
        funext k
        by_cases hk : k = start
        · rw [hk, placed_of_lt (Nat.lt_succ_self _), placed_of_lt (Nat.lt_succ_self _)]
        · simpa [placed, Function.update_of_ne hk] using congrFun h k
      rw [hhead, ih (Nat.succ.inj hlength) htail]

/-! What a key makes of the identity at every qubit -/

section Separation

open Classical

variable (hone : number (.lit 1) = 1)
  (hmerge : ∀ c d, number (Operator.mergeCoeffs c d) = number c * number d)

/-- A Pauli operator moves the identity at its qubit to itself. -/
theorem regular_single (k : ℕ) (p : Pauli) {b : ℕ → Pauli} (hb : b k = .i) (m : Letters R) :
    Element.onQubit k ((Interpretation.regular number hone hmerge).matrix (.pauli p))
      (Pi.single b m) = Pi.single (Function.update b k p) m := by
  funext b'
  rw [Element.onQubit_apply, Finset.sum_eq_single .i]
  · have hentry : (Interpretation.regular number hone hmerge).matrix (.pauli p) (b' k) .i =
        if p = b' k then 1 else 0 := by
      change (if (p.mul .i).2 = b' k then number (.lit (p.mul .i).1.value) else 0) = _
      rw [Pauli.mul_i, Phase.value, hone]
    rw [hentry]
    by_cases h : b' = Function.update b k p
    · subst h
      rw [Function.update_self, if_pos rfl, one_smul, Function.update_idem, ← hb,
        Function.update_eq_self, Pi.single_eq_same, Pi.single_eq_same]
    · rw [Pi.single_eq_of_ne h]
      by_cases hp : p = b' k
      · rw [Pi.single_eq_of_ne, smul_zero]
        rintro rfl
        refine h ?_
        rw [hp, Function.update_idem, Function.update_eq_self]
      · rw [if_neg hp, zero_smul]
  · intro r _ hr
    rw [Pi.single_eq_of_ne, smul_zero]
    rintro rfl
    exact hr (by rw [← hb, Function.update_self])
  · simp

/-- A key moves the identity at every qubit to its Pauli operators, behind its words. -/
theorem regular_key (start : Dims) (ps : List Pauli) (words : List (List Ladder)) :
    (Interpretation.regular number hone hmerge).keyAt start
        (ps.map .pauli ++ words.map .word) (Pi.single (fun _ => .i) 1) =
      Pi.single (placed start.qubits ps) (wordsAt start.modes words) := by
  induction ps generalizing start with
  | nil =>
    rw [List.map_nil, List.nil_append, keyAt_words]
    change wordsAt start.modes words • Pi.single (fun _ => Pauli.i) (1 : Letters R) = _
    rw [← Pi.single_smul, smul_eq_mul, mul_one]
    rfl
  | cons p ps ih =>
    rw [List.map_cons, List.cons_append, Interpretation.keyAt, Module.End.mul_apply, ih]
    exact regular_single hone hmerge _ p (placed_of_lt (Nat.lt_succ_self _) ps) _

/-- What an element makes of the identity at every qubit, at some Pauli operators. -/
noncomputable def entry (b : ℕ → Pauli) : Element Pauli R →ₗ[R] Letters R where
  toFun e := e (Pi.single (fun _ => .i) 1) b
  map_add' _ _ := rfl
  map_smul' _ _ := rfl

/-- The entries tell the numbers in front of keys. -/
theorem separates_regular (sig : Signature) :
    (Interpretation.regular number hone hmerge).Separates sig := by
  rintro _ ⟨ps, words, rfl, hps, hwords, hnormal⟩
  refine ⟨MvPolynomial.lcoeff R (occurrences 0 words) ∘ₗ entry (placed 0 ps), 1,
    fun x y h => by rwa [mul_one, mul_one] at h, ?_⟩
  rintro _ ⟨qs, ws, rfl, hqs, hws, hnormal'⟩
  have hentry : entry (placed 0 ps) ((Interpretation.regular number hone hmerge).keyAt 0
      (qs.map .pauli ++ ws.map .word)) =
      (Pi.single (placed 0 qs) (wordsAt 0 ws) : (ℕ → Pauli) → Letters R) (placed 0 ps) :=
    congrFun (regular_key hone hmerge 0 qs ws) (placed 0 ps)
  rw [LinearMap.comp_apply, hentry]
  simp only [key_eq_iff (hqs.trans hps.symm)]
  by_cases hpq : qs = ps
  · subst hpq
    rw [Pi.single_eq_same, wordsAt_eq, MvPolynomial.lcoeff_apply, MvPolynomial.coeff_monomial]
    by_cases hvw : ws = words
    · simp [hvw]
    · rw [if_neg fun h => hvw (occurrences_injective hnormal' hnormal (hws.trans hwords.symm) h),
        if_neg fun h => hvw h.2]
  · rw [Pi.single_eq_of_ne fun h => hpq (placed_injective (hqs.trans hps.symm) h.symm), map_zero,
      if_neg fun h => hpq h.1]

end Separation

end SpinBoson
