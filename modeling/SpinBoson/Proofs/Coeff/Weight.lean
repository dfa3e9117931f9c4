import Mathlib.Tactic.Linarith
import SpinBoson.Coeff.Normal
import SpinBoson.Proofs.Similarity

/-!
A weight that distributing lowers. It depends on the skeleton of a coefficient alone, and a lighter
operand makes a lighter coefficient.
-/
namespace SpinBoson.Coeff

variable {κ : Type}

/-- The weight of an operation from those of its operands. -/
def Op.weigh (op : Op) (m n : Nat) : Nat :=
  match op with
  | .add => m + n + 1
  | .sub => m + 2 * n + 2
  | .mul => m * n
  | .div => m * (2 * n + 1)
  | .pow => m * n

def weight : Coeff κ → Nat
  | lit _ | var _ | raw _ => 2
  | neg e => 2 * e.weight + 1
  | bin op a b => op.weigh a.weight b.weight
  | app _ e => e.weight + 1

theorem Op.weigh_lt_left (op : Op) {m m' n : Nat} (h : m' < m) (hn : 2 ≤ n) :
    op.weigh m' n < op.weigh m n := by
  cases op with
  | add | sub => simp only [weigh]; omega
  | mul | pow => exact Nat.mul_lt_mul_of_pos_right h (by omega)
  | div => exact Nat.mul_lt_mul_of_pos_right h (by omega)

theorem Op.weigh_lt_right (op : Op) {m n n' : Nat} (h : n' < n) (hm : 2 ≤ m) :
    op.weigh m n' < op.weigh m n := by
  cases op with
  | add | sub => simp only [weigh]; omega
  | mul | pow => exact Nat.mul_lt_mul_of_pos_left h (by omega)
  | div => exact Nat.mul_lt_mul_of_pos_left (by omega) (by omega)

theorem Op.weigh_le (op : Op) {m m' n n' : Nat} (hm : m' ≤ m) (hn : n' ≤ n) :
    op.weigh m' n' ≤ op.weigh m n := by
  cases op with
  | add | sub => simp only [weigh]; omega
  | mul | pow => exact Nat.mul_le_mul hm hn
  | div => exact Nat.mul_le_mul hm (by omega)

theorem two_le_weight (e : Coeff κ) : 2 ≤ e.weight := by
  induction e with
  | lit | var | raw => exact Nat.le_refl 2
  | neg e ih | app f e ih => simp only [weight]; omega
  | bin op a b iha ihb =>
    calc
      2 ≤ op.weigh 2 2 := by cases op <;> decide
      _ ≤ op.weigh a.weight b.weight := op.weigh_le iha ihb

theorem weight_skeleton (e : Coeff κ) : e.skeleton.weight = e.weight := by
  induction e with
  | lit | var | raw => rfl
  | neg e ih | app f e ih => simp only [skeleton, weight, ih]
  | bin op a b iha ihb => simp only [skeleton, weight, iha, ihb]

theorem weight_of_beq [BEq κ] {e e' : Coeff κ} (h : (e == e') = true) : e.weight = e'.weight := by
  rw [← weight_skeleton e, skeleton_of_beq h, weight_skeleton]

/--
A walk with a rule that never makes a node heavier leaves everything as it is, or a lighter tree,
provided that it cannot change a node of this tree without making it lighter.
-/
theorem rewrite_eq_or_lighter {f : Coeff κ → Coeff κ} (hle : ∀ e, (f e).weight ≤ e.weight)
    {e : Coeff κ} (h : e.AllNodes fun x => f x = x ∨ (f x).weight < x.weight) :
    (e.rewrite f = e ∧ e.AllNodes fun x => f x = x) ∨ (e.rewrite f).weight < e.weight := by
  induction e with
  | lit | var | raw => exact Or.imp (fun h => ⟨h, h⟩) id h
  | neg e ih | app g e ih =>
    rcases ih h.2 with ⟨heq, hall⟩ | hlt
    · rw [rewrite, heq]
      exact h.1.imp (fun h => ⟨h, h, hall⟩) id
    · refine .inr (Nat.lt_of_le_of_lt (hle _) ?_)
      simp only [weight]
      omega
  | bin op a b iha ihb =>
    rcases iha h.2.1 with ⟨heqa, halla⟩ | hlta
    · rcases ihb h.2.2 with ⟨heqb, hallb⟩ | hltb
      · rw [rewrite, heqa, heqb]
        exact h.1.imp (fun h => ⟨h, h, halla, hallb⟩) id
      · refine .inr (Nat.lt_of_le_of_lt (hle _) ?_)
        rw [heqa]
        exact op.weigh_lt_right hltb (two_le_weight a)
    · have hb : (b.rewrite f).weight ≤ b.weight := by
        rcases ihb h.2.2 with ⟨heqb, _⟩ | hltb
        · rw [heqb]
        · exact Nat.le_of_lt hltb
      refine .inr (Nat.lt_of_le_of_lt (hle _) ?_)
      exact Nat.lt_of_le_of_lt (op.weigh_le (Nat.le_refl _) hb)
        (op.weigh_lt_left hlta (two_le_weight b))

theorem rewrite_weight_le {f : Coeff κ → Coeff κ} (hle : ∀ e, (f e).weight ≤ e.weight)
    (e : Coeff κ) : (e.rewrite f).weight ≤ e.weight := by
  induction e with
  | lit | var | raw => exact hle _
  | neg e ih | app g e ih => exact Nat.le_trans (hle _) (by simp only [weight]; omega)
  | bin op a b iha ihb => exact Nat.le_trans (hle _) (op.weigh_le iha ihb)

/-! Distributing -/

variable {ρ : Type} [RealScalar ρ] [Scalar κ ρ]

theorem distributeQuotient_lighter (a b : Coeff κ) :
    distributeQuotient a b = div a b ∨ (distributeQuotient a b).weight < (div a b).weight := by
  have ha := two_le_weight a
  have hb := two_le_weight b
  unfold distributeQuotient
  split
  · split
    · exact .inl rfl
    · right
      split
      · simp [weight, Op.weigh]
      · simp only [weight, Op.weigh]
        omega
      · simp only [weight, Op.weigh]
        omega
  · rename_i u v _
    right
    have hu := two_le_weight u
    simp only [weight, Op.weigh]
    nlinarith
  · right
    simp only [weight, Op.weigh, minusOne]
    nlinarith

theorem distributePower_lighter (a b : Coeff κ) :
    distributePower a b = pow a b ∨ (distributePower a b).weight < (pow a b).weight := by
  have ha := two_le_weight a
  have hb := two_le_weight b
  unfold distributePower
  split
  · right
    simp only [weight, Op.weigh]
    nlinarith
  · split
    · right
      simp only [weight, Op.weigh]
      nlinarith
    · split
      · split
        · exact .inl rfl
        · exact .inr (by simp [weight, Op.weigh])
      · rename_i base x y _ _
        have hbase := two_le_weight base
        split
        · right
          simp only [weight, Op.weigh]
          omega
        · exact .inl rfl
      · exact .inl rfl

/-- A step of distributing leaves a node as it is or makes it lighter. -/
theorem distribute_lighter (e : Coeff κ) :
    e.distribute = e ∨ e.distribute.weight < e.weight := by
  unfold distribute
  split
  · exact .inr (by simp [weight])
  · right
    simp only [weight, Op.weigh, minusOne]
    omega
  · right
    simp only [weight, Op.weigh, minusOne]
    omega
  · exact .inr (by simp [weight, Op.weigh])
  · exact .inr (by simp [weight, Op.weigh])
  · rename_i u v b
    have hb := two_le_weight b
    right
    simp only [weight, Op.weigh]
    nlinarith
  · rename_i a u v _
    have ha := two_le_weight a
    right
    simp only [weight, Op.weigh]
    nlinarith
  · exact distributeQuotient_lighter _ _
  · exact distributePower_lighter _ _
  · exact .inr (by simp [weight])
  · exact .inl rfl

end SpinBoson.Coeff
