import Mathlib.Tactic.Linarith
import SpinBoson.Proofs.Operator.Checks
import SpinBoson.Proofs.Operator.Sums
import SpinBoson.Proofs.Operator.Weighing

/-!
Repeated distributing and gathering ends with sums of products that have at most one coefficient,
in front. It changes no signature and leaves no text that cannot be read.
-/
namespace SpinBoson.Operator

open Pass

variable {κ ρ : Type} [RealScalar ρ] [Scalar κ ρ]

/-! Distributing makes an operator lighter -/

/-- Products weigh more than sums, and what is to be written out more than what is written out. -/
def distribution : Weighing where
  spin
    | .pauli _ => 2
    | _ => 10
  mode := 2
  bin op m n :=
    match op with
    | .add => m + n + 1
    | .sub => m + 2 * n + 2
    | .mul | .kron => m * n
  scale m := 2 * m

theorem distribution_strict : distribution.Strict where
  spin_pos s := by cases s <;> simp [distribution]
  mode_pos := by decide
  bin_pos op {m n} hm hn := by
    cases op with
    | add | sub => simp only [distribution]; omega
    | mul | kron => exact Nat.mul_pos hm hn
  scale_pos h := by simp only [distribution]; omega
  bin_left op {m m' n} h hn := by
    cases op with
    | add | sub => simp only [distribution]; omega
    | mul | kron => exact Nat.mul_lt_mul_of_pos_right h hn
  bin_right op {m n n'} h hm := by
    cases op with
    | add | sub => simp only [distribution]; omega
    | mul | kron => exact Nat.mul_lt_mul_of_pos_left h hm
  scale_lt h := by simp only [distribution]; omega

section

variable (a b : Operator κ) (c : Coeff κ)

theorem distribution_add :
    distribution.weigh (add a b) = distribution.weigh a + distribution.weigh b + 1 := rfl

theorem distribution_sub :
    distribution.weigh (sub a b) = distribution.weigh a + 2 * distribution.weigh b + 2 := rfl

theorem distribution_mul :
    distribution.weigh (mul a b) = distribution.weigh a * distribution.weigh b := rfl

theorem distribution_scale : distribution.weigh (scale c a) = 2 * distribution.weigh a := rfl

end

theorem two_le_distribution (a : Operator κ) : 2 ≤ distribution.weigh a := by
  induction a with
  | spin s => cases s <;> simp [Weighing.weigh, distribution]
  | mode => exact Nat.le_refl 2
  | scale c a ih =>
    rw [distribution_scale]
    omega
  | bin op a b iha ihb =>
    cases op with
    | add | sub =>
      simp only [distribution_add, distribution_sub]
      omega
    | mul | kron => exact Nat.le_trans (by decide : 2 ≤ 2 * 2) (Nat.mul_le_mul iha ihb)

theorem overSum_lighter {op : Op} (hop : op.IsProduct) (a b : Operator κ) :
    overSum op a b = bin op a b ∨
      distribution.weigh (overSum op a b) < distribution.weigh (bin op a b) := by
  have hbin (x y : Operator κ) :
      distribution.weigh (bin op x y) = distribution.weigh x * distribution.weigh y := by
    rcases hop with rfl | rfl <;> rfl
  unfold overSum
  split
  · right
    have hb := two_le_distribution b
    simp only [distribution_add, hbin]
    nlinarith
  · right
    have ha := two_le_distribution a
    simp only [distribution_add, hbin]
    nlinarith
  · exact .inl rfl

/-- A step of distributing leaves a node as it is or makes it lighter. -/
theorem distribute_lighter (a : Operator κ) :
    a.distribute = a ∨ distribution.weigh a.distribute < distribution.weigh a := by
  unfold distribute
  split
  · exact .inr (by simp [Weighing.weigh, distribution, ladderPauli])
  · exact .inr (by simp [Weighing.weigh, distribution, ladderPauli])
  · right
    simp only [distribution_add, distribution_sub, distribution_scale]
    omega
  · exact overSum_lighter (.inl rfl) _ _
  · exact overSum_lighter (.inr rfl) _ _
  · right
    simp only [distribution_add, distribution_scale]
    omega
  · exact .inl rfl

theorem liftScale_eq_distribution {op : Op} (hop : op.IsProduct) (a b : Operator κ) :
    distribution.weigh (liftScale op a b) = distribution.weigh (bin op a b) := by
  have hbin (x y : Operator κ) :
      distribution.weigh (bin op x y) = distribution.weigh x * distribution.weigh y := by
    rcases hop with rfl | rfl <;> rfl
  unfold liftScale
  split
  · simp only [distribution_scale, hbin, Nat.mul_assoc]
  · simp only [distribution_scale, hbin, Nat.mul_left_comm]
  · rfl

theorem gatherCoeffs_le_distribution (a : Operator κ) :
    distribution.weigh a.gatherCoeffs ≤ distribution.weigh a := by
  unfold gatherCoeffs
  split
  · simp only [distribution_scale]
    omega
  · exact Nat.le_of_eq (liftScale_eq_distribution (.inl rfl) _ _)
  · exact Nat.le_of_eq (liftScale_eq_distribution (.inr rfl) _ _)
  · exact Nat.le_refl _

/-! Gathering makes an operator lighter -/

/-- Products count what stands below them twice. -/
def gathering : Weighing where
  spin _ := 1
  mode := 1
  bin op m n :=
    match op with
    | .add | .sub => m + n + 1
    | .mul | .kron => 2 * (m + n)
  scale m := m + 1

theorem gathering_strict : gathering.Strict where
  spin_pos _ := Nat.one_pos
  mode_pos := Nat.one_pos
  bin_pos op {m n} hm hn := by cases op <;> simp only [gathering] <;> omega
  scale_pos h := by simp only [gathering]; omega
  bin_left op {m m' n} h hn := by cases op <;> simp only [gathering] <;> omega
  bin_right op {m n n'} h hm := by cases op <;> simp only [gathering] <;> omega
  scale_lt h := by simp only [gathering]; omega

theorem gathering_scale (c : Coeff κ) (a : Operator κ) :
    gathering.weigh (scale c a) = gathering.weigh a + 1 := rfl

theorem liftScale_lighter {op : Op} (hop : op.IsProduct) (a b : Operator κ) :
    liftScale op a b = bin op a b ∨
      gathering.weigh (liftScale op a b) < gathering.weigh (bin op a b) := by
  have hbin (x y : Operator κ) :
      gathering.weigh (bin op x y) = 2 * (gathering.weigh x + gathering.weigh y) := by
    rcases hop with rfl | rfl <;> rfl
  unfold liftScale
  split
  · right
    simp only [gathering_scale, hbin]
    omega
  · right
    simp only [gathering_scale, hbin]
    omega
  · exact .inl rfl

theorem gatherCoeffs_lighter (a : Operator κ) :
    a.gatherCoeffs = a ∨ gathering.weigh a.gatherCoeffs < gathering.weigh a := by
  unfold gatherCoeffs
  split
  · right
    simp only [gathering_scale]
    omega
  · exact liftScale_lighter (.inl rfl) _ _
  · exact liftScale_lighter (.inr rfl) _ _
  · exact .inl rfl

theorem rewrite_gatherCoeffs_lighter (a : Operator κ) :
    (a.rewrite gatherCoeffs = a ∧ a.AllNodes fun x => x.gatherCoeffs = x) ∨
      gathering.weigh (a.rewrite gatherCoeffs) < gathering.weigh a :=
  rewrite_eq_or_lt gathering_strict.descent gatherCoeffs_lighter a

/--
A round of a rule and of gathering that changes nothing in the eyes of the test has found nothing to
change, if the rule makes lighter what it changes and gathering makes nothing heavier.
-/
theorem fixed_of_round {w : Weighing} (hw : w.Strict) {f : Operator κ → Operator κ}
    (hf : ∀ a, f a = a ∨ w.weigh (f a) < w.weigh a)
    (hgather : ∀ a : Operator κ, w.weigh a.gatherCoeffs ≤ w.weigh a) {a : Operator κ}
    (h : ((a.rewrite f).rewrite gatherCoeffs == a) = true) :
    (a.AllNodes fun x => f x = x) ∧ a.AllNodes fun x => x.gatherCoeffs = x := by
  have hle : w.weigh ((a.rewrite f).rewrite gatherCoeffs) ≤ w.weigh (a.rewrite f) :=
    rewrite_related hw.congruence hgather (a.rewrite f)
  rw [Weighing.weigh_of_beq h] at hle
  rcases rewrite_eq_or_lt hw.descent hf a with ⟨heq, hall⟩ | hlt
  · refine ⟨hall, ?_⟩
    rw [heq] at h
    rcases rewrite_gatherCoeffs_lighter a with ⟨_, hgathered⟩ | hlt
    · exact hgathered
    · rw [Weighing.weigh_of_beq h] at hlt
      exact absurd hlt (Nat.lt_irrefl _)
  · exact absurd (Nat.lt_of_le_of_lt hle hlt) (Nat.lt_irrefl _)

/-! Nodes at which nothing is left to do -/

theorem overSum_eq_iff {op : Op} (hop : op.IsProduct) {a b : Operator κ} :
    overSum op a b = bin op a b ↔ a.isSum = false ∧ b.isSum = false := by
  have hadd : op ≠ .add := by rcases hop with rfl | rfl <;> decide
  unfold overSum
  split
  · simp [isSum, hadd.symm]
  · simp [isSum, hadd.symm]
  · rename_i ha hb
    exact iff_of_true rfl ⟨isSum_eq_false_iff.mpr ha, isSum_eq_false_iff.mpr hb⟩

theorem liftScale_eq_iff {op : Op} {a b : Operator κ} :
    liftScale op a b = bin op a b ↔ a.isScaled = false ∧ b.isScaled = false := by
  unfold liftScale
  split
  · simp [isScaled]
  · simp [isScaled]
  · rename_i ha hb
    exact iff_of_true rfl ⟨isScaled_eq_false_iff.mpr ha, isScaled_eq_false_iff.mpr hb⟩

theorem isDistributed_iff {a : Operator κ} : a.isDistributed = true ↔ a.distribute = a := by
  cases a with
  | spin s => cases s <;> simp [distribute, isDistributed, ladderPauli]
  | mode => exact iff_of_true rfl rfl
  | scale c a =>
    cases a with
    | bin op x y => cases op <;> simp [distribute, isDistributed, isSum]
    | _ => exact iff_of_true rfl rfl
  | bin op a b =>
    have hproduct {op : Op} (hop : op.IsProduct) :
        (!a.isSum && !b.isSum) = true ↔ overSum op a b = bin op a b := by
      simp [overSum_eq_iff hop]
    cases op with
    | add => exact iff_of_true rfl rfl
    | sub => simp [distribute, isDistributed]
    | mul => exact hproduct (.inl rfl)
    | kron => exact hproduct (.inr rfl)

theorem isGathered_iff {a : Operator κ} : a.isGathered = true ↔ a.gatherCoeffs = a := by
  cases a with
  | spin | mode => exact iff_of_true rfl rfl
  | scale c a =>
    cases a with
    | scale d x =>
      refine iff_of_false nofun fun h => ?_
      have hsize := congrArg size h
      simp only [gatherCoeffs, size] at hsize
      omega
    | _ => exact iff_of_true rfl rfl
  | bin op a b =>
    have hlift {op : Op} : (!a.isScaled && !b.isScaled) = true ↔ liftScale op a b = bin op a b := by
      simp [liftScale_eq_iff]
    cases op with
    | add | sub => exact iff_of_true rfl rfl
    | mul | kron => exact hlift

/-! The shape of what is left -/

/-- Products and tensor products of Pauli and ladder operators. -/
inductive IsProduct : Operator κ → Prop where
  | pauli (p : Pauli) : IsProduct (pauli p)
  | mode (l : Ladder) : IsProduct (mode l)
  | mul {a b : Operator κ} : IsProduct a → IsProduct b → IsProduct (mul a b)
  | kron {a b : Operator κ} : IsProduct a → IsProduct b → IsProduct (kron a b)

theorem IsProduct.plain {a : Operator κ} (h : a.IsProduct) : a.IsPlain := by
  cases h <;> exact ⟨rfl, rfl⟩

theorem sumOf_product {a : Operator κ} (hd : a.AllNodes fun x => x.isDistributed = true)
    (hg : a.AllNodes fun x => x.isGathered = true) : a.SumOf IsProduct := by
  induction a with
  | spin s =>
    cases s with
    | pauli p => exact .pauli p
    | raising | lowering => simp [AllNodes, isDistributed] at hd
  | mode l => exact .mode l
  | scale c a ih =>
    refine (sumOf_iff_of_plain (a := a) ⟨?_, ?_⟩).mp (ih hd.2 hg.2)
    · simpa [isDistributed] using hd.1
    · simpa [isGathered] using hg.1
  | bin op a b iha ihb =>
    have ha := iha hd.2.1 hg.2.1
    have hb := ihb hd.2.2 hg.2.2
    have operands (h : (!a.isSum && !b.isSum) = true ∧ (!a.isScaled && !b.isScaled) = true) :
        a.IsProduct ∧ b.IsProduct := by
      simp only [Bool.and_eq_true, Bool.not_eq_true'] at h
      exact ⟨(sumOf_iff_of_plain ⟨h.1.1, h.2.1⟩).mp ha, (sumOf_iff_of_plain ⟨h.1.2, h.2.2⟩).mp hb⟩
    cases op with
    | add => exact ⟨ha, hb⟩
    | sub => simp [AllNodes, isDistributed] at hd
    | mul =>
      obtain ⟨ha, hb⟩ := operands ⟨hd.1, hg.1⟩
      exact .mul ha hb
    | kron =>
      obtain ⟨ha, hb⟩ := operands ⟨hd.1, hg.1⟩
      exact .kron ha hb

/-- Neither rule changes a product at any node. -/
theorem IsProduct.fixed {a : Operator κ} (h : a.IsProduct) :
    a.AllNodes fun x => x.distribute = x ∧ x.gatherCoeffs = x := by
  induction h with
  | pauli | mode => exact ⟨rfl, rfl⟩
  | mul ha hb iha ihb =>
    refine ⟨⟨?_, ?_⟩, iha, ihb⟩
    · exact (overSum_eq_iff (.inl rfl)).mpr ⟨ha.plain.1, hb.plain.1⟩
    · exact liftScale_eq_iff.mpr ⟨ha.plain.2, hb.plain.2⟩
  | kron ha hb iha ihb =>
    refine ⟨⟨?_, ?_⟩, iha, ihb⟩
    · exact (overSum_eq_iff (.inr rfl)).mpr ⟨ha.plain.1, hb.plain.1⟩
    · exact liftScale_eq_iff.mpr ⟨ha.plain.2, hb.plain.2⟩

theorem fixed_of_sumOf_product {a : Operator κ} (h : a.SumOf IsProduct) :
    a.AllNodes fun x => x.distribute = x ∧ x.gatherCoeffs = x := by
  induction a with
  | spin | mode => exact h.fixed
  | scale c a =>
    refine ⟨⟨?_, ?_⟩, IsProduct.fixed h⟩
    · cases h <;> rfl
    · cases h <;> rfl
  | bin op a b iha ihb =>
    cases op with
    | add => exact ⟨⟨rfl, rfl⟩, iha h.1, ihb h.2⟩
    | sub | mul | kron => exact IsProduct.fixed h

end SpinBoson.Operator
