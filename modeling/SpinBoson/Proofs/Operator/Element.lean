import Mathlib
import SpinBoson.Operator.Basic

/-!
The algebra in which operators have their meaning. An element acts on functions of the states of all
qubits, and the values of these functions are polynomials in a creation and an annihilation for each
mode, which commute. The states of one qubit are the indices of the matrices that act on it.
-/
namespace SpinBoson

/-- Polynomials in the letters of all modes; `true` stands for an annihilation. -/
abbrev Letters (R : Type) [CommSemiring R] : Type :=
  MvPolynomial (ℕ × Bool) R

/-- Linear maps on functions of the states of all qubits. -/
abbrev Element (ι R : Type) [CommSemiring R] : Type :=
  Module.End (Letters R) ((ℕ → ι) → Letters R)

namespace Element

theorem minus_one_smul {ι κ : Type} [CommRing κ] (e : Element ι κ) : (-1 : κ) • e = -e :=
  neg_one_smul κ e

variable {ι R : Type} [Fintype ι] [CommSemiring R]

/-- A matrix that acts on one qubit. -/
noncomputable def onQubit (q : ℕ) (M : Matrix ι ι R) : Element ι R where
  toFun f b := ∑ i, M (b q) i • f (Function.update b q i)
  map_add' f g := by
    funext b
    simp only [Pi.add_apply, smul_add, Finset.sum_add_distrib]
  map_smul' p f := by
    funext b
    simp only [Pi.smul_apply, RingHom.id_apply, Finset.smul_sum]
    exact Finset.sum_congr rfl fun i _ => smul_comm _ _ _

theorem onQubit_apply (q : ℕ) (M : Matrix ι ι R) (f : (ℕ → ι) → Letters R)
    (b : ℕ → ι) : onQubit q M f b = ∑ i, M (b q) i • f (Function.update b q i) := rfl

theorem onQubit_one [DecidableEq ι] (q : ℕ) : onQubit q (1 : Matrix ι ι R) = 1 := by
  refine LinearMap.ext fun f => funext fun b => ?_
  rw [onQubit_apply, Finset.sum_eq_single (b q)]
  · simp
  · intro i _ hi
    rw [Matrix.one_apply_ne' hi, zero_smul]
  · simp

theorem onQubit_add (q : ℕ) (M N : Matrix ι ι R) :
    onQubit q (M + N) = onQubit q M + onQubit q N := by
  refine LinearMap.ext fun f => funext fun b => ?_
  simp only [LinearMap.add_apply, Pi.add_apply, onQubit_apply, Matrix.add_apply, add_smul,
    Finset.sum_add_distrib]

theorem onQubit_smul (q : ℕ) (z : R) (M : Matrix ι ι R) :
    onQubit q (z • M) = z • onQubit q M := by
  refine LinearMap.ext fun f => funext fun b => ?_
  simp only [LinearMap.smul_apply, Pi.smul_apply, onQubit_apply, Matrix.smul_apply, smul_assoc,
    Finset.smul_sum]

theorem onQubit_zero (q : ℕ) : onQubit q (0 : Matrix ι ι R) = 0 := by
  refine LinearMap.ext fun f => funext fun b => ?_
  simp [onQubit_apply]

theorem onQubit_mul (q : ℕ) (M N : Matrix ι ι R) :
    onQubit q (M * N) = onQubit q M * onQubit q N := by
  refine LinearMap.ext fun f => funext fun b => ?_
  simp only [Module.End.mul_apply, onQubit_apply, Matrix.mul_apply, Function.update_self,
    Function.update_idem, Finset.sum_smul, Finset.smul_sum, mul_smul]
  exact Finset.sum_comm

/-- Matrices on different qubits commute. -/
theorem onQubit_commute {p q : ℕ} (h : p ≠ q) (M N : Matrix ι ι R) :
    Commute (onQubit p M) (onQubit q N) := by
  refine LinearMap.ext fun f => funext fun b => ?_
  simp only [Module.End.mul_apply, onQubit_apply, Function.update_of_ne h,
    Function.update_of_ne h.symm, Finset.smul_sum]
  rw [Finset.sum_comm]
  refine Finset.sum_congr rfl fun i _ => Finset.sum_congr rfl fun j _ => ?_
  rw [smul_comm, Function.update_comm h]

/-- The polynomial of one letter of a mode. -/
noncomputable def letter (k : ℕ) : Ladder → Letters R
  | .creation => MvPolynomial.X (k, false)
  | .identity => 1
  | .annihilation => MvPolynomial.X (k, true)

end Element

end SpinBoson
