import SpinBoson.Proofs.Coeff.Arithmetic
import SpinBoson.Proofs.Coeff.NormalForm

/-!
Powers of normal forms. Distributing turns a whole power of a power into one power, of a smaller
base, and this goes on until no rule applies. What is left then is a normal form again, and it does
not matter at which point exponents are multiplied.
-/
namespace SpinBoson.Coeff

variable {κ ρ : Type} [RealScalar ρ] [Scalar κ ρ]

/-- What is left of a power when distributing has come to its end. -/
def reducedPower : Coeff κ → Coeff κ → Coeff κ
  | pow base (lit x), lit y =>
    if Scalar.isInteger y then reducedPower base (lit (x * y))
    else distributePower (pow base (lit x)) (lit y)
  | a, b => distributePower a b

/-- Either the exponent is multiplied into that of the base, or there is one step at most. -/
theorem reducedPower_cases (a b : Coeff κ) :
    (∃ base x y, a = pow base (lit x) ∧ b = lit y ∧ Scalar.isInteger y = true ∧
        reducedPower a b = reducedPower base (lit (x * y))) ∨
      (∀ base x y, a = pow base (lit x) → b = lit y → Scalar.isInteger y = false) ∧
        reducedPower a b = distributePower a b := by
  rw [reducedPower.eq_def a b]
  split
  · rename_i base x y
    split
    · rename_i hy
      exact .inl ⟨base, x, y, rfl, rfl, hy, rfl⟩
    · rename_i hy
      refine .inr ⟨?_, rfl⟩
      rintro _ _ _ ⟨⟩ ⟨⟩
      simpa using hy
  · rename_i hne
    exact .inr ⟨fun base x y ha hb => absurd hb (hne base x y ha), rfl⟩

theorem reducedPower_pow (base : Coeff κ) {x y : κ} (hy : Scalar.isInteger y = true) :
    reducedPower (pow base (lit x)) (lit y) = reducedPower base (lit (x * y)) := by
  rw [reducedPower, if_pos hy]

/-- A power that distributing leaves alone is what is left of it. -/
theorem reducedPower_of_fixed {a b : Coeff κ} (h : distributePower a b = pow a b) :
    reducedPower a b = pow a b := by
  rcases reducedPower_cases a b with ⟨base, x, y, rfl, rfl, hy, -⟩ | ⟨-, hred⟩
  · unfold distributePower at h
    split at h
    · cases h
    · split at h
      · cases h
      · simp only [hy, if_true] at h
        cases h
  · rw [hred, h]

section Exact

variable [ExactScalar κ]

theorem distributePower_one (a : Coeff κ) : distributePower a (lit 1) = a := by
  simp [distributePower, isLiteral_iff]

theorem distributePower_zero [Nontrivial κ] (a : Coeff κ) : distributePower a (lit 0) = lit 1 := by
  simp [distributePower, isLiteral_iff]

/-- A power that divides by no zero is the literal power, also with the exponents zero and one. -/
theorem distributePower_lit {x y : κ} (h : Scalar.dividesByZero x y = false) :
    distributePower (lit x) (lit y) = lit (Scalar.power x y) := by
  unfold distributePower
  split
  · rename_i h1
    rw [lit.inj (isLiteral_iff.mp h1), ExactScalar.power_one]
  · split
    · rename_i h0
      rw [lit.inj (isLiteral_iff.mp h0), ExactScalar.power_zero]
    · simp [h]

variable [Nontrivial κ]

theorem reducedPower_zero (a : Coeff κ) : reducedPower a (lit 0) = lit 1 := by
  induction a with
  | bin op a b iha _ =>
    rcases reducedPower_cases (bin op a b) (lit 0) with ⟨base, x, y, ha, hb, -, h⟩ | ⟨-, h⟩
    · cases ha
      cases hb
      rw [h, mul_zero]
      exact iha
    · rw [h, distributePower_zero]
  | _ => exact distributePower_zero _

/-- A power of one with a whole exponent is one. -/
theorem power_of_one {y : κ} (hy : Scalar.isInteger y = true) : Scalar.power 1 y = 1 := by
  have hdiv (y : κ) : Scalar.dividesByZero 1 y = false :=
    ExactScalar.dividesByZero_of_ne one_ne_zero y
  have hzero : Scalar.power (1 : κ) 0 = 1 := ExactScalar.power_zero 1
  obtain ⟨-, hpow⟩ := ExactScalar.power_power hy (hdiv 0) (by rw [hzero]; exact hdiv y)
  rw [hzero, zero_mul, hzero] at hpow
  exact hpow.symm

end Exact

/-- It does not matter whether a whole exponent is multiplied before a power is reduced or after. -/
theorem reducedPower_reducedPower [ExactPower κ] [Nontrivial κ] {n : Coeff κ} {x y : κ}
    (hy : Scalar.isInteger y = true) (hne : reducedPower n (lit x) ≠ lit 0) :
    reducedPower (reducedPower n (lit x)) (lit y) = reducedPower n (lit (x * y)) := by
  -- one step, at a base whose exponent does not take part
  have step {n : Coeff κ} {x : κ} (hne : distributePower n (lit x) ≠ lit 0)
      (hlast : ∀ base w, n = pow base (lit w) → Scalar.isInteger x = false) :
      reducedPower (distributePower n (lit x)) (lit y) = reducedPower n (lit (x * y)) := by
    rcases distributePower_cases n (lit x) with h | ⟨_, ⟨⟩, h⟩
    · rw [h, reducedPower_pow n hy]
    · rcases h with ⟨rfl, h⟩ | ⟨rfl, h⟩ | ⟨z, rfl, hdiv, h⟩ | ⟨base, w, rfl, hx, -⟩
      · rw [h, one_mul]
      · have hone : Scalar.dividesByZero 1 y = false :=
          ExactScalar.dividesByZero_of_ne one_ne_zero y
        rw [h, zero_mul, reducedPower_zero]
        change distributePower (lit 1) (lit y) = lit 1
        rw [distributePower_lit hone, power_of_one hy]
      · have hdiv' : Scalar.dividesByZero (Scalar.power z x) y = false :=
          ExactScalar.dividesByZero_of_ne (fun hz => hne (by rw [h, hz])) y
        obtain ⟨hdiv'', hpow⟩ := ExactScalar.power_power hy hdiv hdiv'
        rw [h]
        change distributePower (lit _) (lit y) = distributePower (lit z) (lit (x * y))
        rw [distributePower_lit hdiv', distributePower_lit hdiv'', hpow]
      · rw [hlast base w rfl] at hx
        cases hx
  -- a whole `x` is multiplied into the exponent of the base, and so is the product with `y`
  induction n generalizing x with
  | bin op a b iha _ =>
    rcases reducedPower_cases (bin op a b) (lit x) with ⟨base, w, _, ha, ⟨⟩, hx, h⟩ | ⟨hlast, h⟩
    · cases ha
      rw [h] at hne ⊢
      rw [iha hne, reducedPower_pow a (ExactPower.isInteger_mul hx hy), mul_assoc]
    · rw [h] at hne ⊢
      exact step hne fun base w heq => hlast base w x heq rfl
  | _ => exact step hne fun _ _ heq => by cases heq

/-! Normal forms -/

section Normal

variable [OrderKey κ] {tolerance : ρ} {a b e : Coeff κ}

theorem InNormalForm.operands {op : Op} (h : (bin op a b).InNormalForm tolerance) :
    a.InNormalForm tolerance ∧ b.InNormalForm tolerance :=
  ⟨⟨h.textFree.2.1, h.distributed.2.1, h.inOrder.2.1, h.collected.2.1⟩,
    ⟨h.textFree.2.2, h.distributed.2.2, h.inOrder.2.2, h.collected.2.2⟩⟩

theorem InNormalForm.argument {f : Func} (h : (app f e).InNormalForm tolerance) :
    e.InNormalForm tolerance :=
  ⟨h.textFree.2, h.distributed.2, h.inOrder.2, h.collected.2⟩

theorem inNormalForm_pow (ha : a.InNormalForm tolerance) (hb : b.InNormalForm tolerance)
    (h : distributePower a b = pow a b) : (pow a b).InNormalForm tolerance where
  textFree := textFree_bin.mpr ⟨ha.textFree, hb.textFree⟩
  distributed := ⟨h, ha.distributed, hb.distributed⟩
  inOrder := ⟨(by rintro (h | h) <;> cases h), ha.inOrder, hb.inOrder⟩
  collected := ⟨rfl, ha.collected, hb.collected⟩

/-- What is left of a power of normal forms is a normal form. -/
theorem inNormalForm_reducedPower [ExactScalar κ] (ha : a.InNormalForm tolerance)
    (hb : b.InNormalForm tolerance) : (reducedPower a b).InNormalForm tolerance := by
  have step {a b : Coeff κ} (ha : a.InNormalForm tolerance) (hb : b.InNormalForm tolerance)
      (hlast : ∀ base x y, a = pow base (lit x) → b = lit y → Scalar.isInteger y = false) :
      (distributePower a b).InNormalForm tolerance := by
    rcases distributePower_cases a b with h | ⟨y, rfl, h⟩
    · rw [h]
      exact inNormalForm_pow ha hb h
    · rcases h with ⟨-, h⟩ | ⟨-, h⟩ | ⟨x, -, -, h⟩ | ⟨base, x, rfl, hy, -⟩
      · rwa [h]
      · rw [h]
        exact inNormalForm_lit _ _
      · rw [h]
        exact inNormalForm_lit _ _
      · rw [hlast base x y rfl rfl] at hy
        cases hy
  induction a generalizing b with
  | bin op c d ihc _ =>
    rcases reducedPower_cases (bin op c d) b with ⟨base, x, y, hc, -, -, h⟩ | ⟨hlast, h⟩
    · cases hc
      rw [h]
      exact ihc ha.operands.1 (inNormalForm_lit _ _)
    · rw [h]
      exact step ha hb hlast
  | _ => exact step ha hb fun _ _ _ heq => by cases heq

theorem reducedPower_one [ExactScalar κ] (ha : a.InNormalForm tolerance) :
    reducedPower a (lit 1) = a := by
  rcases reducedPower_cases a (lit 1) with ⟨base, x, _, rfl, ⟨⟩, -, h⟩ | ⟨-, h⟩
  · rw [h, mul_one]
    exact reducedPower_of_fixed ha.distributed.1
  · rw [h, distributePower_one]

/-- A function of a normal form, folded at a literal, is a normal form. -/
theorem inNormalForm_distribute_app {f : Func} (he : e.InNormalForm tolerance) :
    (app f e).distribute.InNormalForm tolerance := by
  have keep (h : (app f e).distribute = app f e) : (app f e).InNormalForm tolerance :=
    ⟨⟨by simp, he.textFree⟩, ⟨h, he.distributed⟩, ⟨trivial, he.inOrder⟩, ⟨rfl, he.collected⟩⟩
  cases e with
  | lit z => exact inNormalForm_lit _ _
  | var | raw | neg | bin | app => exact keep rfl

end Normal

end SpinBoson.Coeff
