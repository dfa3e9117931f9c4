import SpinBoson.Proofs.Similarity

/-!
Orders in which a walk with a rule either descends or finds nothing to change. They look at the
skeleton of an operator alone, so a walk whose result tests equal to the operator has changed nothing.
-/
namespace SpinBoson.Operator

variable {κ : Type}

/-- A transitive relation that may be used at any place of a tree. -/
structure Descent (lt : Operator κ → Operator κ → Prop) : Prop where
  trans : ∀ {a b c}, lt a b → lt b c → lt a c
  left : ∀ {op a a' b}, lt a' a → lt (bin op a' b) (bin op a b)
  right : ∀ {op a b b'}, lt b' b → lt (bin op a b') (bin op a b)
  scale : ∀ {c a a'}, lt a' a → lt (scale c a') (scale c a)

/-- A walk with a rule that descends wherever it acts descends, or acts nowhere. -/
theorem rewrite_eq_or_lt {lt : Operator κ → Operator κ → Prop} (hlt : Descent lt)
    {f : Operator κ → Operator κ} (hf : ∀ a, f a = a ∨ lt (f a) a) (a : Operator κ) :
    (a.rewrite f = a ∧ a.AllNodes fun x => f x = x) ∨ lt (a.rewrite f) a := by
  -- below a node that has become smaller the rule can only make it smaller still
  have step {x y : Operator κ} (h : lt x y) : lt (f x) y := by
    rcases hf x with heq | hx
    · rwa [heq]
    · exact hlt.trans hx h
  induction a with
  | spin | mode => exact Or.imp (fun h => ⟨h, h⟩) id (hf _)
  | scale c a ih =>
    rcases ih with ⟨heq, hall⟩ | hlt'
    · rw [rewrite, heq]
      exact Or.imp (fun h => ⟨h, h, hall⟩) id (hf _)
    · exact .inr (step (hlt.scale hlt'))
  | bin op a b iha ihb =>
    rcases iha with ⟨heqa, halla⟩ | hlta
    · rcases ihb with ⟨heqb, hallb⟩ | hltb
      · rw [rewrite, heqa, heqb]
        exact Or.imp (fun h => ⟨h, h, halla, hallb⟩) id (hf _)
      · rw [rewrite, heqa]
        exact .inr (step (hlt.right hltb))
    · rcases ihb with ⟨heqb, _⟩ | hltb
      · rw [rewrite, heqb]
        exact .inr (step (hlt.left hlta))
      · exact .inr (step (hlt.trans (hlt.left hlta) (hlt.right hltb)))

/-! Weights -/

/-- How operators are weighed, from the leaves up. -/
structure Weighing where
  spin : Spin → Nat
  mode : Nat
  bin : Op → Nat → Nat → Nat
  scale : Nat → Nat

namespace Weighing

/-- The weight of an operator. -/
def weigh (w : Weighing) : Operator κ → Nat
  | .spin s => w.spin s
  | .mode _ => w.mode
  | .bin op a b => w.bin op (w.weigh a) (w.weigh b)
  | .scale _ a => w.scale (w.weigh a)

/-- Whether weights are positive and a heavier operand makes a heavier operator. -/
structure Strict (w : Weighing) : Prop where
  spin_pos : ∀ s, 0 < w.spin s
  mode_pos : 0 < w.mode
  bin_pos : ∀ op {m n}, 0 < m → 0 < n → 0 < w.bin op m n
  scale_pos : ∀ {m}, 0 < m → 0 < w.scale m
  bin_left : ∀ op {m m' n}, m' < m → 0 < n → w.bin op m' n < w.bin op m n
  bin_right : ∀ op {m n n'}, n' < n → 0 < m → w.bin op m n' < w.bin op m n
  scale_lt : ∀ {m m'}, m' < m → w.scale m' < w.scale m

variable {w : Weighing}

theorem weigh_skeleton (a : Operator κ) : w.weigh a.skeleton = w.weigh a := by
  induction a with
  | spin | mode => rfl
  | bin op a b iha ihb => simp only [skeleton, weigh, iha, ihb]
  | scale c a ih => simp only [skeleton, weigh, ih]

theorem weigh_of_beq [BEq κ] {a a' : Operator κ} (h : (a == a') = true) :
    w.weigh a = w.weigh a' := by
  rw [← weigh_skeleton a, skeleton_of_beq h, weigh_skeleton]

variable (hw : w.Strict)

include hw

theorem Strict.weigh_pos (a : Operator κ) : 0 < w.weigh a := by
  induction a with
  | spin s => exact hw.spin_pos s
  | mode => exact hw.mode_pos
  | bin op a b iha ihb => exact hw.bin_pos op iha ihb
  | scale c a ih => exact hw.scale_pos ih

theorem Strict.descent : Descent fun b a : Operator κ => w.weigh b < w.weigh a where
  trans := Nat.lt_trans
  left h := hw.bin_left _ h (hw.weigh_pos _)
  right h := hw.bin_right _ h (hw.weigh_pos _)
  scale h := hw.scale_lt h

theorem Strict.congruence : Congruence fun a b : Operator κ => w.weigh b ≤ w.weigh a where
  refl _ := Nat.le_refl _
  trans h h' := Nat.le_trans h' h
  bin {op a a' b b'} ha hb := by
    refine Nat.le_trans (m := w.weigh (Operator.bin op a b')) ?_ ?_
    · rcases Nat.lt_or_eq_of_le ha with h | h
      · exact Nat.le_of_lt (hw.bin_left op h (hw.weigh_pos _))
      · simp only [weigh, h, Nat.le_refl]
    · rcases Nat.lt_or_eq_of_le hb with h | h
      · exact Nat.le_of_lt (hw.bin_right op h (hw.weigh_pos _))
      · simp only [weigh, h, Nat.le_refl]
  scale h := by
    rcases Nat.lt_or_eq_of_le h with h | h
    · exact Nat.le_of_lt (hw.scale_lt h)
    · simp only [weigh, h, Nat.le_refl]

end Weighing

theorem rewrite_related {R : Operator κ → Operator κ → Prop} (hR : Congruence R)
    {f : Operator κ → Operator κ} (hf : ∀ a, R a (f a)) (a : Operator κ) : R a (a.rewrite f) := by
  induction a with
  | spin | mode => exact hf _
  | bin op a b iha ihb => exact hR.trans (hR.bin iha ihb) (hf _)
  | scale c a ih => exact hR.trans (hR.scale ih) (hf _)

theorem rewrite_of_allNodes {f : Operator κ → Operator κ} {a : Operator κ}
    (h : a.AllNodes fun x => f x = x) : a.rewrite f = a := by
  induction a with
  | spin | mode => exact h
  | bin op a b iha ihb => rw [rewrite, iha h.2.1, ihb h.2.2, h.1]
  | scale c a ih => rw [rewrite, ih h.2, h.1]

end SpinBoson.Operator
