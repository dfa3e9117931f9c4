import Mathlib.Algebra.BigOperators.Group.Multiset.Basic
import SpinBoson.Canonical.NormalOrdered
import SpinBoson.Canonical.PauliReduced
import SpinBoson.Proofs.Operator.Weighing

/-!
How far the operands of an operation are from a left-nested chain in the order of their ranks.
Nesting to the left and swapping neighbours in the wrong order both bring them closer.
-/
namespace SpinBoson.Operator

variable {κ ρ : Type} [RealScalar ρ] [Scalar κ ρ]

/-- An operation whose operands are put in order, and the ranks of elementary operators. -/
structure Arrangement where
  op : Op
  spin : Nat
  mode : Ladder → Nat

/-- The number of pairs in which the left rank is greater than the right one. -/
def inversions (l r : Multiset Nat) : Nat :=
  (l.map fun i => r.countP (· < i)).sum

theorem inversions_add_left (l l' r : Multiset Nat) :
    inversions (l + l') r = inversions l r + inversions l' r := by
  simp only [inversions, Multiset.map_add, Multiset.sum_add]

theorem inversions_add_right (l r r' : Multiset Nat) :
    inversions l (r + r') = inversions l r + inversions l r' := by
  simp only [inversions, Multiset.countP_add, Multiset.sum_map_add]

theorem inversions_singletons (i j : Nat) : inversions {i} {j} = if j < i then 1 else 0 := by
  simp only [inversions, Multiset.map_singleton, Multiset.sum_singleton]
  rw [← Multiset.cons_zero, Multiset.countP_cons, Multiset.countP_zero, Nat.zero_add]

namespace Arrangement

/-- The ranks of the operands. An operand has the rank of the first operator in it. -/
def ranks (w : Arrangement) : Operator κ → Multiset Nat
  | .spin _ => {w.spin}
  | .mode l => {w.mode l}
  | .bin op a b => if op = w.op then w.ranks a + w.ranks b else w.ranks a
  | .scale _ a => w.ranks a

/-- The inversions of all nodes, and what right operands have beyond their first one. -/
def disorder (w : Arrangement) : Operator κ → Nat
  | .spin _ => 0
  | .mode _ => 0
  | .bin op a b =>
    if op = w.op then
      w.disorder a + w.disorder b + ((w.ranks b).card - 1) + inversions (w.ranks a) (w.ranks b)
    else w.disorder a + w.disorder b
  | .scale _ a => w.disorder a

/-- Whether the same operands are closer to their order. -/
def Closer (w : Arrangement) (b a : Operator κ) : Prop :=
  w.ranks b = w.ranks a ∧ w.disorder b < w.disorder a

section

omit [RealScalar ρ] [Scalar κ ρ]

variable (w : Arrangement)

theorem ranks_bin_self (a b : Operator κ) :
    w.ranks (bin w.op a b) = w.ranks a + w.ranks b := if_pos rfl

theorem disorder_bin_self (a b : Operator κ) :
    w.disorder (bin w.op a b) =
      w.disorder a + w.disorder b + ((w.ranks b).card - 1) + inversions (w.ranks a) (w.ranks b) :=
  if_pos rfl

theorem ranks_bin_of_ne {op : Op} (hop : op ≠ w.op) (a b : Operator κ) :
    w.ranks (bin op a b) = w.ranks a := if_neg hop

theorem card_ranks_pos (a : Operator κ) : 0 < (w.ranks a).card := by
  induction a with
  | spin | mode => exact Nat.one_pos
  | scale c a ih => exact ih
  | bin op a b iha ihb =>
    by_cases hop : op = w.op
    · subst hop
      rw [ranks_bin_self, Multiset.card_add]
      omega
    · rw [ranks_bin_of_ne w hop]
      exact iha

theorem skeleton_eq (a : Operator κ) :
    w.ranks a.skeleton = w.ranks a ∧ w.disorder a.skeleton = w.disorder a := by
  induction a with
  | spin | mode => exact ⟨rfl, rfl⟩
  | bin op a b iha ihb =>
    simp only [skeleton, ranks, disorder, iha, ihb, and_self]
  | scale c a ih => exact ih

theorem not_closer_of_beq [BEq κ] {a a' : Operator κ} (h : (a == a') = true) :
    ¬ w.Closer a a' := by
  rintro ⟨_, hlt⟩
  rw [← (w.skeleton_eq a).2, skeleton_of_beq h, (w.skeleton_eq a').2] at hlt
  exact Nat.lt_irrefl _ hlt

theorem descent : Descent (w.Closer (κ := κ)) where
  trans h h' := ⟨h.1.trans h'.1, h.2.trans h'.2⟩
  left {op a a' b} h := by
    obtain ⟨hranks, hlt⟩ := h
    by_cases hop : op = w.op
    · simp only [Closer, ranks, disorder, hop, if_true, hranks, true_and]
      omega
    · simp only [Closer, ranks, disorder, hop, if_false, hranks, true_and]
      omega
  right {op a b b'} h := by
    obtain ⟨hranks, hlt⟩ := h
    by_cases hop : op = w.op
    · simp only [Closer, ranks, disorder, hop, if_true, hranks, true_and]
      omega
    · simp only [Closer, ranks, disorder, hop, if_false, true_and]
      omega
  scale h := h

theorem closer_nestLeft (a x y : Operator κ) :
    w.Closer (bin w.op (bin w.op a x) y) (bin w.op a (bin w.op x y)) := by
  have hx := w.card_ranks_pos x
  have hy := w.card_ranks_pos y
  refine ⟨by simp only [ranks_bin_self, add_assoc], ?_⟩
  simp only [disorder_bin_self, ranks_bin_self, inversions_add_left, inversions_add_right,
    Multiset.card_add]
  omega

variable {w}

theorem closer_swap {x y : Operator κ} {i j : Nat} (hx : w.ranks x = {i}) (hy : w.ranks y = {j})
    (hij : j < i) : w.Closer (bin w.op y x) (bin w.op x y) := by
  have hji : ¬ i < j := by omega
  refine ⟨by simp only [ranks_bin_self, add_comm], ?_⟩
  simp only [disorder_bin_self, hx, hy, inversions_singletons, Multiset.card_singleton, hij, hji,
    if_true, if_false]
  omega

theorem closer_swapLast (a : Operator κ) {x y : Operator κ} {i j : Nat} (hx : w.ranks x = {i})
    (hy : w.ranks y = {j}) (hij : j < i) :
    w.Closer (bin w.op (bin w.op a y) x) (bin w.op (bin w.op a x) y) := by
  have hji : ¬ i < j := by omega
  refine ⟨by simp only [ranks_bin_self, add_right_comm], ?_⟩
  simp only [disorder_bin_self, ranks_bin_self, hx, hy, inversions_add_left, inversions_singletons,
    Multiset.card_singleton, hij, hji, if_true, if_false]
  omega

end

/-- A walk that changes nothing in the eyes of the test has found nothing to bring closer. -/
theorem fixed_of_rewrite {w : Arrangement} {f : Operator κ → Operator κ}
    (hf : ∀ a, f a = a ∨ w.Closer (f a) a)
    {a : Operator κ} (h : (a.rewrite f == a) = true) : a.AllNodes fun x => f x = x := by
  rcases rewrite_eq_or_lt w.descent hf a with ⟨_, hall⟩ | hlt
  · exact hall
  · exact absurd hlt (w.not_closer_of_beq h)

end Arrangement

/-! Qubits before modes -/

def placeRank : Subsystem → Nat
  | .qubit => 0
  | .mode => 1

/-- The factors of a tensor chain, qubits first. -/
def qubitsFirst : Arrangement := ⟨.kron, placeRank .qubit, fun _ => placeRank .mode⟩

omit [RealScalar ρ] [Scalar κ ρ] in
theorem ranks_of_factorSubsystem {a : Operator κ} {t : Subsystem}
    (h : a.factorSubsystem? = some t) :
    qubitsFirst.ranks a = {placeRank t} := by
  induction a with
  | spin | mode => cases h; rfl
  | scale c a ih => exact ih h
  | bin op a b iha _ =>
    cases op with
    | mul => exact iha h
    | add | sub | kron => cases h

theorem gatherQubits_closer (a : Operator κ) :
    a.gatherQubits = a ∨ qubitsFirst.Closer a.gatherQubits a := by
  unfold gatherQubits
  split
  · exact .inr (qubitsFirst.closer_nestLeft _ _ _)
  · rename_i p m b _
    split
    · rename_i h
      exact .inr (Arrangement.closer_swapLast (w := qubitsFirst) p
        (ranks_of_factorSubsystem h.2) (ranks_of_factorSubsystem h.1) Nat.one_pos)
    · exact .inl rfl
  · rename_i m b _ _
    split
    · rename_i h
      exact .inr (Arrangement.closer_swap (w := qubitsFirst)
        (ranks_of_factorSubsystem h.2) (ranks_of_factorSubsystem h.1) Nat.one_pos)
    · exact .inl rfl
  · exact .inl rfl

/-! Letters in normal order -/

/-- The letters of a word, in normal order. -/
def lettersInOrder : Arrangement := ⟨.mul, 0, Ladder.rank⟩

theorem normalOrder_closer (a : Operator κ) :
    a.normalOrder = a ∨ lettersInOrder.Closer a.normalOrder a := by
  unfold normalOrder
  split
  · exact .inr (lettersInOrder.closer_nestLeft _ _ _)
  · rename_i p l r
    split
    · rename_i h
      exact .inr (Arrangement.closer_swapLast (w := lettersInOrder) (x := mode l) (y := mode r) p
        rfl rfl (of_decide_eq_true h))
    · exact .inl rfl
  · rename_i l r
    split
    · rename_i h
      exact .inr (Arrangement.closer_swap (w := lettersInOrder) (x := mode l) (y := mode r)
        rfl rfl (of_decide_eq_true h))
    · exact .inl rfl
  · exact .inl rfl

end SpinBoson.Operator
