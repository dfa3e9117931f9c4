import Mathlib.Data.ZMod.Basic
import SpinBoson.Canonical.PauliReduced
import SpinBoson.Proofs.ComplexDoubles

/-!
Quarter turns, the powers of the imaginary unit. The phases of products of Pauli operators are such
powers, and they are multiplied without rounding, in double precision too.
-/
namespace SpinBoson

section

variable {κ ρ : Type} [RealScalar ρ] [Scalar κ ρ]

/-- The imaginary unit to a power. -/
def turn : ZMod 4 → κ
  | 0 => 1
  | 1 => Scalar.imag
  | 2 => -1
  | 3 => -Scalar.imag

/-- The power of the imaginary unit that a phase is. -/
def Phase.turns : Phase → ZMod 4
  | .one => 0
  | .i => 1
  | .minusI => 3

theorem Phase.value_eq_turn (phase : Phase) : (phase.value : κ) = turn phase.turns := by
  cases phase <;> rfl

end

/-- Scalars that multiply powers of the imaginary unit without rounding. -/
class ExactPhases (κ : Type) {ρ : Type} [RealScalar ρ] [Scalar κ ρ] : Prop extends
    PartialEquivBEq κ where
  turn_beq : ∀ q : ZMod 4, ((turn q : κ) == turn q) = true
  mul_beq : ∀ {z w : κ} {q r : ZMod 4}, (z == turn q) = true → (w == turn r) = true →
    (z * w == turn (q + r)) = true

section Exact

variable {κ ρ : Type} [RealScalar ρ] [Scalar κ ρ] [ExactRing κ]

theorem imag_sq : (Scalar.imag : κ) ^ 2 = -1 :=
  (pow_two _).trans ExactRing.imag_mul_imag

theorem turn_eq_pow : ∀ q : ZMod 4, (turn q : κ) = Scalar.imag ^ q.val
  | 0 => (pow_zero _).symm
  | 1 => (pow_one _).symm
  | 2 => imag_sq.symm
  | 3 => calc
      -Scalar.imag = (Scalar.imag ^ 2 * Scalar.imag : κ) := by rw [imag_sq, neg_one_mul]
      _ = Scalar.imag ^ 3 := (pow_succ _ 2).symm

theorem turn_mul (q r : ZMod 4) : (turn q * turn r : κ) = turn (q + r) := by
  have hfour : (Scalar.imag : κ) ^ 4 = 1 := by
    rw [pow_mul _ 2 2, imag_sq, neg_one_sq]
  calc
    (turn q * turn r : κ) = Scalar.imag ^ (q.val + r.val) := by
      rw [turn_eq_pow, turn_eq_pow, pow_add]
    _ = Scalar.imag ^ ((q.val + r.val) % 4) := pow_eq_pow_mod _ hfour
    _ = turn (q + r) := by rw [turn_eq_pow, ZMod.val_add]

instance : ExactPhases κ where
  turn_beq _ := BEq.rfl
  mul_beq hz hw := by rw [eq_of_beq hz, eq_of_beq hw, turn_mul, beq_self_eq_true]

end Exact

/-! Double precision -/

namespace Double

/-- The numbers that test equal to a number: both zeros to a zero, else the number itself. -/
def twins (x : Double) : List Double :=
  if x == 0 then [0, -0] else [x]

theorem eq_zero_of_beq {x : Double} (h : (x == 0) = true) : x = 0 ∨ x = -0 := by
  rcases eq_of_beq h with rfl | ⟨s, _, hx, _⟩
  · exact .inl rfl
  · have hbits := bits_eq (x := x) (by rw [hx]; intro h; cases h)
    obtain ⟨bits⟩ := x
    rw [hx] at hbits
    cases s with
    | positive => exact .inl (congrArg Double.mk hbits)
    | negative => exact .inr (congrArg Double.mk hbits)

theorem mem_twins {x y : Double} (h : (x == y) = true) : x ∈ y.twins := by
  by_cases hy : (y == 0) = true
  · rw [twins, if_pos hy]
    simpa using eq_zero_of_beq (beq_trans h hy)
  · have hx : (x == 0) = false := Bool.eq_false_iff.mpr fun hx => hy (beq_trans (beq_symm h) hx)
    obtain ⟨a⟩ := x
    obtain ⟨b⟩ := y
    rw [twins, if_neg hy, List.mem_singleton]
    exact congrArg Double.mk (bits_of_beq h hx)

end Double

namespace ComplexDouble

/-- The numbers that test equal to a number. -/
def twins (z : ComplexDouble) : List ComplexDouble :=
  z.re.twins.flatMap fun x => z.im.twins.map fun y => ⟨x, y⟩

theorem mem_twins {z w : ComplexDouble} (h : (z == w) = true) : z ∈ w.twins := by
  obtain ⟨hre, him⟩ := beq_iff.mp h
  exact List.mem_flatMap.mpr
    ⟨z.re, Double.mem_twins hre, List.mem_map.mpr ⟨z.im, Double.mem_twins him, rfl⟩⟩

instance : ExactPhases ComplexDouble where
  turn_beq := by decide +kernel
  mul_beq hz hw := by
    have hall : ∀ q r : ZMod 4, ∀ z ∈ twins (turn q), ∀ w ∈ twins (turn r),
        (z * w == turn (q + r)) = true := by
      decide +kernel
    exact hall _ _ _ (mem_twins hz) _ (mem_twins hw)

end ComplexDouble

end SpinBoson
