import SpinBoson.Proofs.Coeff.Reading

/-!
Readings in a commutative ring in which differences, quotients, powers and functions of literals
have a meaning, too. Distributing keeps what a coefficient means in all of them.
-/
namespace SpinBoson.Coeff

variable {κ ρ R : Type} [RealScalar ρ] [Scalar κ ρ] [ExactScalar κ]

omit [ExactScalar κ] in
theorem isLiteral_iff [ExactRing κ] {e : Coeff κ} {z : κ} : e.isLiteral z = true ↔ e = lit z := by
  cases e <;> simp [isLiteral, literal?]

/-- All that distributing does at a power. -/
theorem distributePower_cases (a b : Coeff κ) :
    distributePower a b = pow a b ∨ ∃ y, b = lit y ∧
      (y = 1 ∧ distributePower a b = a ∨ y = 0 ∧ distributePower a b = lit 1 ∨
        (∃ x, a = lit x ∧ Scalar.dividesByZero x y = false ∧
          distributePower a b = lit (Scalar.power x y)) ∨
        ∃ base x, a = pow base (lit x) ∧ Scalar.isInteger y = true ∧
          distributePower a b = pow base (lit (x * y))) := by
  unfold distributePower
  split
  · rename_i h1
    exact .inr ⟨1, isLiteral_iff.mp h1, .inl ⟨rfl, rfl⟩⟩
  · split
    · rename_i h0
      exact .inr ⟨0, isLiteral_iff.mp h0, .inr (.inl ⟨rfl, rfl⟩)⟩
    · split
      · rename_i x y _ _
        split
        · exact .inl rfl
        · rename_i hdiv
          exact .inr ⟨y, rfl, .inr (.inr (.inl ⟨x, rfl, by simpa using hdiv, rfl⟩))⟩
      · rename_i base x y _ _
        split
        · rename_i hy
          exact .inr ⟨y, rfl, .inr (.inr (.inr ⟨base, x, rfl, hy, rfl⟩))⟩
        · exact .inl rfl
      · exact .inl rfl

variable [CommRing R]

namespace Reading

variable (r : Reading κ R)

theorem defined_minusOne : r.Defined minusOne :=
  r.defined_lit _

theorem number_minusOne : r.number minusOne = -1 := by
  rw [minusOne, r.number_lit, ExactScalar.minusOne_eq]
  exact (map_neg r.scalar 1).trans (congrArg (- ·) (map_one r.scalar))

end Reading

/-- What coefficients mean, with the laws that distributing relies on. -/
structure Arithmetic (κ R : Type) {ρ : Type} [RealScalar ρ] [Scalar κ ρ] [ExactScalar κ]
    [CommRing R] extends Reading κ R where
  power : R → R → R
  /-- Whether a base has a power with an exponent. -/
  Permits : R → R → Prop
  defined_neg : ∀ {e : Coeff κ}, Defined (neg e) ↔ Defined e
  number_neg : ∀ {e : Coeff κ}, Defined e → number (neg e) = -number e
  defined_sub : ∀ {a b : Coeff κ}, Defined (sub a b) ↔ Defined a ∧ Defined b
  number_sub : ∀ {a b : Coeff κ}, Defined a → Defined b → number (sub a b) = number a - number b
  defined_div : ∀ {a b : Coeff κ}, Defined (div a b) ↔ Defined a ∧ Defined b ∧ number b ≠ 0
  number_div : ∀ {a b : Coeff κ}, Defined (div a b) →
    number (div a b) = number a * power (number b) (scalar Scalar.minusOne)
  defined_pow : ∀ {a b : Coeff κ},
    Defined (pow a b) ↔ Defined a ∧ Defined b ∧ Permits (number a) (number b)
  number_pow : ∀ {a b : Coeff κ}, Defined (pow a b) →
    number (pow a b) = power (number a) (number b)
  number_app_lit : ∀ f z, number (app f (lit z)) = scalar (Scalar.apply f z)
  permits_of_ne : ∀ {p : R} (q : R), p ≠ 0 → Permits p q
  power_scalar : ∀ {x y : κ}, Scalar.dividesByZero x y = false →
    power (scalar x) (scalar y) = scalar (Scalar.power x y)
  power_one : ∀ {e : Coeff κ}, Defined e → power (number e) (scalar 1) = number e
  power_zero : ∀ p : R, power p (scalar 0) = 1
  power_power : ∀ {p : R} {x y : κ}, Scalar.isInteger y = true → Permits p (scalar x) →
    Permits (power p (scalar x)) (scalar y) → Permits p (scalar (x * y)) ∧
      power p (scalar (x * y)) = power (power p (scalar x)) (scalar y)

namespace Arithmetic

variable (r : Arithmetic κ R)

theorem keeps_neg (e : Coeff κ) : r.Keeps (neg e) (mul minusOne e) := by
  intro h
  have he := r.defined_neg.mp h
  refine ⟨Reading.defined_mul.mpr ⟨r.defined_minusOne, he⟩, ?_⟩
  rw [Reading.number_mul r.defined_minusOne he, r.number_neg he, r.number_minusOne, neg_one_mul]

theorem keeps_neg_literal (z : κ) : r.Keeps (neg (lit z)) (lit (-z)) := by
  intro _
  refine ⟨r.defined_lit _, ?_⟩
  rw [r.number_neg (r.defined_lit z), r.number_lit, r.number_lit]
  exact map_neg r.scalar z

theorem keeps_sub (a b : Coeff κ) : r.Keeps (sub a b) (add a (mul minusOne b)) := by
  intro h
  obtain ⟨ha, hb⟩ := r.defined_sub.mp h
  have hmb := Reading.defined_mul.mpr ⟨r.defined_minusOne, hb⟩
  refine ⟨Reading.defined_add.mpr ⟨ha, hmb⟩, ?_⟩
  rw [Reading.number_add ha hmb, Reading.number_mul r.defined_minusOne hb, r.number_sub ha hb,
    r.number_minusOne, neg_one_mul, sub_eq_add_neg]

theorem keeps_div_add (u v b : Coeff κ) :
    r.Keeps (div (add u v) b) (add (div u b) (div v b)) := by
  intro h
  obtain ⟨huv, hb, hne⟩ := r.defined_div.mp h
  obtain ⟨hu, hv⟩ := Reading.defined_add.mp huv
  have hub := r.defined_div.mpr ⟨hu, hb, hne⟩
  have hvb := r.defined_div.mpr ⟨hv, hb, hne⟩
  refine ⟨Reading.defined_add.mpr ⟨hub, hvb⟩, ?_⟩
  rw [Reading.number_add hub hvb, r.number_div hub, r.number_div hvb, r.number_div h,
    Reading.number_add hu hv, add_mul]

/-- A quotient means a product with any coefficient that means the inverse. -/
theorem keeps_div_of_inverse {a b c : Coeff κ} (hc : r.Defined b → r.number b ≠ 0 →
    r.Defined c ∧ r.number c = r.power (r.number b) (r.scalar Scalar.minusOne)) :
    r.Keeps (div a b) (mul a c) := by
  intro h
  obtain ⟨ha, hb, hne⟩ := r.defined_div.mp h
  obtain ⟨hdc, hnum⟩ := hc hb hne
  refine ⟨Reading.defined_mul.mpr ⟨ha, hdc⟩, ?_⟩
  rw [Reading.number_mul ha hdc, hnum, r.number_div h]

theorem power_minusOne {y : κ} (hy : y ≠ 0) :
    r.power (r.scalar y) (r.scalar Scalar.minusOne) = r.scalar (1 / y) := by
  rw [r.power_scalar (ExactScalar.dividesByZero_of_ne hy _), ExactScalar.minusOne_eq,
    ExactScalar.power_neg_one hy]

theorem keeps_distributeQuotient (a b : Coeff κ) :
    r.Keeps (div a b) (distributeQuotient a b) := by
  unfold distributeQuotient
  split
  · rename_i a y
    split
    · exact .refl _
    · rename_i hy
      have hne : y ≠ 0 := by simpa using hy
      split
      · rename_i x
        intro h
        refine ⟨r.defined_lit _, ?_⟩
        rw [r.number_div h, r.number_lit, r.number_lit, r.number_lit, r.power_minusOne hne,
          ExactScalar.div_eq_mul hne]
        exact map_mul r.scalar x (1 / y)
      · exact r.keeps_div_add _ _ _
      · refine r.keeps_div_of_inverse fun _ _ => ⟨r.defined_lit _, ?_⟩
        rw [r.number_lit, r.number_lit, r.power_minusOne hne]
  · exact r.keeps_div_add _ _ _
  · refine r.keeps_div_of_inverse fun hb hne => ?_
    have hpow := r.defined_pow.mpr ⟨hb, r.defined_minusOne, r.permits_of_ne _ hne⟩
    refine ⟨hpow, (r.number_pow hpow).trans ?_⟩
    rw [minusOne, r.number_lit]

theorem keeps_distributePower (a b : Coeff κ) : r.Keeps (pow a b) (distributePower a b) := by
  rcases distributePower_cases a b with h | ⟨y, rfl, h⟩
  · rw [h]
    exact .refl _
  · intro hd
    obtain ⟨ha, -, hpermits⟩ := r.defined_pow.mp hd
    rw [r.number_pow hd]
    rw [r.number_lit] at hpermits ⊢
    rcases h with ⟨rfl, h⟩ | ⟨rfl, h⟩ | ⟨x, rfl, hdiv, h⟩ | ⟨base, x, rfl, hy, h⟩ <;> rw [h]
    · exact ⟨ha, (r.power_one ha).symm⟩
    · refine ⟨r.defined_lit 1, ?_⟩
      rw [r.power_zero, r.number_lit]
      exact map_one r.scalar
    · refine ⟨r.defined_lit _, ?_⟩
      rw [r.number_lit, r.number_lit, r.power_scalar hdiv]
    · obtain ⟨hbase, _, hinner⟩ := r.defined_pow.mp ha
      rw [r.number_lit] at hinner
      rw [r.number_pow ha, r.number_lit] at hpermits ⊢
      obtain ⟨houter, hpow⟩ := r.power_power hy hinner hpermits
      have hd' : r.Defined (pow base (lit (x * y))) :=
        r.defined_pow.mpr ⟨hbase, r.defined_lit _, (r.number_lit _).symm ▸ houter⟩
      exact ⟨hd', by rw [r.number_pow hd', r.number_lit, hpow]⟩

/-- Distributing keeps what a coefficient means. -/
theorem keeps_distribute (e : Coeff κ) : r.Keeps e e.distribute := by
  unfold distribute
  split
  · exact r.keeps_neg_literal _
  · exact r.keeps_neg _
  · exact r.keeps_sub _ _
  · exact r.keeps_add_literals _ _
  · exact r.keeps_mul_literals _ _
  · exact r.keeps_mul_add _ _ _
  · exact r.keeps_add_mul _ _ _
  · exact r.keeps_distributeQuotient _ _
  · exact r.keeps_distributePower _ _
  · exact fun _ => ⟨r.defined_lit _, (r.number_lit _).trans (r.number_app_lit _ _).symm⟩
  · exact .refl _

end Arithmetic

end SpinBoson.Coeff
