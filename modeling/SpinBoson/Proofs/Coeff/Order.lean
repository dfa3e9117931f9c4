import Mathlib.Algebra.BigOperators.Group.List.Basic
import Mathlib.Data.List.Induction
import SpinBoson.Canonical.SortedTerms
import SpinBoson.Proofs.Coeff.Weight

/-!
Sums and products with sorted operands. One walk with the rule that sorts puts a whole tree in
order, and a tree in order is left alone.
-/
namespace SpinBoson

/-- Keys that do not tell apart coefficients that test equal. -/
class LawfulOrderKey (κ : Type) [BEq κ] [OrderKey κ] : Prop where
  key_congr : ∀ {a b : Coeff κ}, (a == b) = true → OrderKey.key a = OrderKey.key b

namespace Coeff

variable {κ : Type}

/-! Operands -/

/-- The operations whose chains are sorted and collected. -/
def Op.IsChain (op : Op) : Prop :=
  op = .add ∨ op = .mul

theorem operands_of_mem {op : Op} {e t : Coeff κ} (h : t ∈ e.operands op) :
    t.operands op = [t] := by
  induction e using operands_induction op with
  | single e he =>
    rw [he, List.mem_singleton] at h
    exact h ▸ he
  | bin a b iha ihb =>
    rw [operands_bin_self] at h
    exact (List.mem_append.mp h).elim iha ihb

theorem ne_bin_of_mem_operands {op : Op} {e t : Coeff κ} (h : t ∈ e.operands op) (a b : Coeff κ) :
    t ≠ bin op a b := by
  rintro rfl
  have hlen := congrArg List.length (operands_of_mem h)
  have ha := List.length_pos_iff.mpr (operands_ne_nil op a)
  have hb := List.length_pos_iff.mpr (operands_ne_nil op b)
  rw [operands_bin_self, List.length_append, List.length_singleton] at hlen
  omega

theorem ne_bin_of_operands {op : Op} {e : Coeff κ} (h : e.operands op = [e]) (a b : Coeff κ) :
    e ≠ bin op a b :=
  ne_bin_of_mem_operands (h.symm ▸ List.mem_singleton_self e) a b

theorem two_le_length_operands (op : Op) (a b : Coeff κ) :
    2 ≤ ((bin op a b).operands op).length := by
  have ha := List.length_pos_iff.mpr (operands_ne_nil op a)
  have hb := List.length_pos_iff.mpr (operands_ne_nil op b)
  rw [operands_bin_self, List.length_append]
  omega

theorem operands_of_not_bin {op : Op} {e : Coeff κ} (h : ∀ a b, e ≠ bin op a b) :
    e.operands op = [e] := by
  cases e with
  | bin op' a b =>
    refine operands_bin_of_ne (fun heq => ?_) a b
    subst heq
    exact h a b rfl
  | _ => rfl

theorem eq_of_operands {op : Op} {e t : Coeff κ} (h : e.operands op = [t]) : e = t := by
  by_cases hbin : ∃ a b, e = bin op a b
  · obtain ⟨a, b, rfl⟩ := hbin
    have hlen := two_le_length_operands op a b
    rw [h] at hlen
    exact absurd hlen (by decide : ¬ 2 ≤ 1)
  · rw [operands_of_not_bin fun a b heq => hbin ⟨a, b, heq⟩] at h
    exact List.singleton_inj.mp h

theorem operands_leftNested {op : Op} {es : List (Coeff κ)} {e : Coeff κ}
    (h : leftNested? (bin op) es = some e) (hes : ∀ t ∈ es, t.operands op = [t]) :
    e.operands op = es := by
  induction h using leftNested?_induction with
  | single e => exact hes e (List.mem_singleton_self e)
  | append es e t _ ih =>
    rw [List.forall_mem_append, List.forall_mem_singleton] at hes
    rw [operands_bin_self, ih hes.1, hes.2]

theorem exists_leftNested {op : Op} {es : List (Coeff κ)} {n : Coeff κ}
    (h : leftNested? (bin op) es = some n) (hlen : 2 ≤ es.length) :
    ∃ init t m, es = init ++ [t] ∧ leftNested? (bin op) init = some m ∧ n = bin op m t := by
  rcases List.eq_nil_or_concat es with rfl | ⟨init, t, rfl⟩
  · cases h
  · rw [List.concat_eq_append] at h hlen ⊢
    rcases leftNested?_append_eq_some.mp h with ⟨rfl, -⟩ | ⟨m, hinit, rfl⟩
    · exact absurd hlen (by decide : ¬ 2 ≤ 1)
    · exact ⟨init, t, m, rfl, hinit, rfl⟩

/--
A left-nested chain has a property at all its nodes if its operands do, and if chains have it that
are nested to the left and made of the first so many operands.
-/
theorem allNodes_leftNested {P : Coeff κ → Prop} {op : Op} {es : List (Coeff κ)} {n : Coeff κ}
    (h : leftNested? (bin op) es = some n) (hes : ∀ t ∈ es, t.operands op = [t] ∧ t.AllNodes P)
    (hP : ∀ x t, t.operands op = [t] → (bin op x t).operands op <+: es →
      leftNested? (bin op) ((bin op x t).operands op) = some (bin op x t) → P (bin op x t)) :
    n.AllNodes P := by
  induction es using List.reverseRecOn generalizing n with
  | nil => cases h
  | append_singleton es t ih =>
    obtain ⟨ht, hPt⟩ := hes t (List.mem_append_right _ (List.mem_singleton_self t))
    have hops := operands_leftNested h fun u hu => (hes u hu).1
    rcases leftNested?_append_eq_some.mp h with ⟨-, rfl⟩ | ⟨m, hm, rfl⟩
    · exact hPt
    · refine ⟨hP m t ht (hops ▸ List.prefix_rfl) (hops ▸ h), ?_, hPt⟩
      exact ih hm (fun u hu => hes u (List.mem_append_left _ hu)) fun x u hu hbegins =>
        hP x u hu (hbegins.trans (List.prefix_append es [t]))

theorem AllNodes.operands {P : Coeff κ → Prop} {op : Op} {e : Coeff κ} (h : e.AllNodes P) :
    ∀ t ∈ e.operands op, t.AllNodes P := by
  induction e using operands_induction op with
  | single e he =>
    rw [he, List.forall_mem_singleton]
    exact h
  | bin a b iha ihb =>
    rw [operands_bin_self, List.forall_mem_append]
    exact ⟨iha h.2.1, ihb h.2.2⟩

theorem allNodes_operands_bin {P : Coeff κ → Prop} {op : Op} {a b : Coeff κ} (ha : a.AllNodes P)
    (hb : b.AllNodes P) : ∀ t ∈ (bin op a b).operands op, t.AllNodes P := by
  rw [operands_bin_self, List.forall_mem_append]
  exact ⟨ha.operands, hb.operands⟩

theorem operands_beq [BEq κ] (op : Op) {e e' : Coeff κ} (h : (e == e') = true) :
    List.Forall₂ (fun s t => (s == t) = true) (e.operands op) (e'.operands op) := by
  induction e generalizing e' with
  | bin op' a b iha ihb =>
    obtain ⟨a', b', rfl, ha, hb⟩ := bin_beq.mp h
    by_cases hop : op' = op
    · subst hop
      rw [operands_bin_self, operands_bin_self]
      exact List.rel_append (iha ha) (ihb hb)
    · rw [operands_bin_of_ne hop, operands_bin_of_ne hop]
      exact .cons h .nil
  | lit => obtain ⟨_, rfl, _⟩ := lit_beq.mp h; exact .cons h .nil
  | var => obtain rfl := var_beq.mp h; exact .cons h .nil
  | raw => obtain rfl := raw_beq.mp h; exact .cons h .nil
  | neg => obtain ⟨_, rfl, _⟩ := neg_beq.mp h; exact .cons h .nil
  | app => obtain ⟨_, rfl, _⟩ := app_beq.mp h; exact .cons h .nil

/-! The weight of a chain -/

theorem weight_terms (e : Coeff κ) :
    e.weight + 1 = (e.terms.map fun t => t.weight + 1).sum := by
  induction e using operands_induction .add with
  | single e he => simp [terms, he]
  | bin a b iha ihb =>
    rw [terms, operands_bin_self, List.map_append, List.sum_append, ← iha, ← ihb]
    simp only [weight, Op.weigh]
    omega

theorem weight_factors (e : Coeff κ) : e.weight = (e.factors.map weight).prod := by
  induction e using operands_induction .mul with
  | single e he => simp [factors, he]
  | bin a b iha ihb =>
    rw [factors, operands_bin_self, List.map_append, List.prod_append, ← iha, ← ihb]
    rfl

theorem weight_of_perm {op : Op} (hop : op.IsChain) {e e' : Coeff κ}
    (h : (e.operands op).Perm (e'.operands op)) : e.weight = e'.weight := by
  rcases hop with rfl | rfl
  · have hsum := (h.map fun t => t.weight + 1).sum_eq
    rw [← weight_terms, ← weight_terms] at hsum
    omega
  · rw [weight_factors, weight_factors]
    exact (h.map weight).prod_eq

/-! Order -/

section Keys

theorem keyLE_iff {a b : Nat × Nat} : keyLE a b = true ↔ a.1 < b.1 ∨ a.1 = b.1 ∧ a.2 ≤ b.2 := by
  simp [keyLE]

theorem keyLE_trans {a b c : Nat × Nat} (hab : keyLE a b = true) (hbc : keyLE b c = true) :
    keyLE a c = true := by
  rw [keyLE_iff] at *
  omega

theorem keyLE_total (a b : Nat × Nat) : (keyLE a b || keyLE b a) = true := by
  rw [Bool.or_eq_true, keyLE_iff, keyLE_iff]
  omega

theorem keysAscend_iff {ks : List (Nat × Nat)} :
    Operator.keysAscend ks = true ↔ ks.Pairwise fun a b => keyLE a b = true := by
  induction ks with
  | nil => simp [Operator.keysAscend]
  | cons a ks ih =>
    cases ks with
    | nil => simp [Operator.keysAscend]
    | cons b rest =>
      rw [Operator.keysAscend, Bool.and_eq_true, ih, List.pairwise_cons (a := a)]
      constructor
      · rintro ⟨hab, hrest⟩
        refine ⟨fun c hc => ?_, hrest⟩
        rcases List.mem_cons.mp hc with rfl | hc
        · exact hab
        · exact keyLE_trans hab ((List.pairwise_cons.mp hrest).1 c hc)
      · rintro ⟨hab, hrest⟩
        exact ⟨hab b List.mem_cons_self, hrest⟩

end Keys

section Order

variable [OrderKey κ]

/-- Whether operands stand by increasing keys. -/
abbrev Ascending (es : List (Coeff κ)) : Prop :=
  es.Pairwise fun s t => keyLE s.orderKey t.orderKey = true

/-- Whether a sum or product has no chain of its own kind on its right and its operands ascend. -/
def InOrder : Coeff κ → Prop
  | bin op a b =>
    op.IsChain → (∀ c d, b ≠ bin op c d) ∧ Ascending ((bin op a b).operands op)
  | _ => True

/-- Whether all literals stand in front. -/
abbrev LiteralsFirst (es : List (Coeff κ)) : Prop :=
  es.Pairwise fun s t => 0 < s.rank → 0 < t.rank

/--
Whether a sum or product has no chain of its own kind on its right, and the literals among factors
stand in front. What is in order is gathered, and unlike order this does not depend on keys.
-/
def Gathered : Coeff κ → Prop
  | bin op a b =>
    op.IsChain → (∀ c d, b ≠ bin op c d) ∧ (op = .mul → LiteralsFirst ((bin op a b).operands op))
  | _ => True

theorem literalsFirst_of_ascending {es : List (Coeff κ)} (h : Ascending es) : LiteralsFirst es := by
  refine h.imp fun hle hpos => ?_
  have := keyLE_iff.mp hle
  simp only [orderKey] at this
  omega

theorem InOrder.gathered {e : Coeff κ} (h : e.InOrder) : e.Gathered := by
  cases e with
  | bin op a b => exact fun hop => ⟨(h hop).1, fun _ => literalsFirst_of_ascending (h hop).2⟩
  | _ => trivial

theorem sortOperands_eq (es : List (Coeff κ)) :
    sortOperands es = es.mergeSort fun a b => keyLE a.orderKey b.orderKey := by
  have h := List.map_mergeSort (l := es.map fun e => (e.orderKey, e)) (f := Prod.snd)
    (r := fun a b => keyLE a.1 b.1) (s := fun a b => keyLE a.orderKey b.orderKey) (by
      intro a ha b hb
      obtain ⟨e, _, rfl⟩ := List.mem_map.mp ha
      obtain ⟨e', _, rfl⟩ := List.mem_map.mp hb
      rfl)
  rw [List.map_map, show Prod.snd ∘ (fun e : Coeff κ => (e.orderKey, e)) = id from rfl,
    List.map_id] at h
  exact h

theorem sortOperands_perm (es : List (Coeff κ)) : (sortOperands es).Perm es := by
  rw [sortOperands_eq]
  exact List.mergeSort_perm es _

theorem sortOperands_ascending (es : List (Coeff κ)) : Ascending (sortOperands es) := by
  rw [sortOperands_eq]
  have htrans (a b c : Coeff κ) : keyLE a.orderKey b.orderKey = true →
      keyLE b.orderKey c.orderKey = true → keyLE a.orderKey c.orderKey = true := keyLE_trans
  exact List.pairwise_mergeSort htrans (fun a b => keyLE_total a.orderKey b.orderKey) es

theorem sortOperands_of_ascending {es : List (Coeff κ)} (h : Ascending es) :
    sortOperands es = es := by
  rw [sortOperands_eq]
  exact List.mergeSort_of_pairwise h

omit [OrderKey κ] in
theorem leftNested_operands {op : Op} (hop : op.IsChain) {e : Coeff κ} (h : e.AllNodes Gathered) :
    leftNested? (bin op) (e.operands op) = some e := by
  induction e using operands_induction op with
  | single e he =>
    rw [he]
    rfl
  | bin a b iha _ =>
    rw [operands_bin_self, operands_of_not_bin (h.1 hop).1]
    exact leftNested?_append_eq_some.mpr (.inr ⟨a, iha h.2.1, rfl⟩)

section Sorting

variable {ρ : Type} [RealScalar ρ] [Scalar κ ρ]

/-- The sorted chain of a node, or the node itself if they test equal. -/
theorem sortChain_bin {op : Op} (hop : op.IsChain) (a b : Coeff κ) :
    ∃ n, leftNested? (bin op) (sortOperands ((bin op a b).operands op)) = some n ∧
      sortChain (bin op a b) = unlessEqual (bin op a b) n := by
  cases hs : leftNested? (bin op) (sortOperands ((bin op a b).operands op)) with
  | none =>
    rw [leftNested?_eq_none_iff] at hs
    have hlen := (sortOperands_perm ((bin op a b).operands op)).length_eq
    have htwo := two_le_length_operands op a b
    rw [hs, List.length_nil] at hlen
    omega
  | some n =>
    refine ⟨n, rfl, ?_⟩
    rcases hop with rfl | rfl
    · simp only [sortChain, hs, Option.getD_some]
    · simp only [sortChain, hs, Option.getD_some]

theorem sortChain_of_not_chain {e : Coeff κ} (h : ∀ op a b, op.IsChain → e ≠ bin op a b) :
    e.sortChain = e := by
  unfold sortChain
  split
  · exact absurd rfl (h _ _ _ (.inl rfl))
  · exact absurd rfl (h _ _ _ (.inr rfl))
  · rfl

omit [OrderKey κ] in
theorem unlessEqual_eq_or (e n : Coeff κ) :
    unlessEqual e n = n ∨ unlessEqual e n = e ∧ (n == e) = true := by
  unfold unlessEqual
  split
  · exact .inr ⟨rfl, ‹_›⟩
  · exact .inl rfl

omit [OrderKey κ] in
theorem unlessEqual_self (e : Coeff κ) : unlessEqual e e = e := by
  unfold unlessEqual
  split <;> rfl

theorem weight_sortChain (e : Coeff κ) : e.sortChain.weight = e.weight := by
  by_cases h : ∃ op a b, Op.IsChain op ∧ e = bin op a b
  · obtain ⟨op, a, b, hop, rfl⟩ := h
    obtain ⟨n, hn, heq⟩ := sortChain_bin hop a b
    have hperm := sortOperands_perm ((bin op a b).operands op)
    have hops := operands_leftNested hn fun t ht => operands_of_mem (hperm.mem_iff.mp ht)
    rw [heq]
    rcases unlessEqual_eq_or (bin op a b) n with h | ⟨h, _⟩
    · rw [h]
      exact weight_of_perm hop (hops ▸ hperm)
    · rw [h]
  · rw [sortChain_of_not_chain fun op a b hop heq => h ⟨op, a, b, hop, heq⟩]

theorem sortChain_of_inOrder {e : Coeff κ} (h : e.AllNodes InOrder) : e.sortChain = e := by
  by_cases hchain : ∃ op a b, Op.IsChain op ∧ e = bin op a b
  · obtain ⟨op, a, b, hop, rfl⟩ := hchain
    obtain ⟨n, hn, heq⟩ := sortChain_bin hop a b
    rw [sortOperands_of_ascending (h.root hop).2,
      leftNested_operands hop (h.imp fun _ => InOrder.gathered)] at hn
    cases hn
    rw [heq, unlessEqual_self]
  · exact sortChain_of_not_chain fun op a b hop heq => hchain ⟨op, a, b, hop, heq⟩

/-- Trees in order are left alone by a walk. -/
theorem rewrite_sortChain_of_inOrder {e : Coeff κ} (h : e.AllNodes InOrder) :
    e.rewrite sortChain = e := by
  induction e with
  | lit | var | raw => exact sortChain_of_inOrder h
  | neg e ih | app f e ih =>
    rw [rewrite, ih h.2]
    exact sortChain_of_inOrder h
  | bin op a b iha ihb =>
    rw [rewrite, iha h.2.1, ihb h.2.2]
    exact sortChain_of_inOrder h

omit [OrderKey κ] in
theorem rank_of_beq {e e' : Coeff κ} (h : (e == e') = true) : e.rank = e'.rank := by
  cases e with
  | lit => obtain ⟨_, rfl, _⟩ := lit_beq.mp h; rfl
  | var => obtain rfl := var_beq.mp h; rfl
  | raw => obtain rfl := raw_beq.mp h; rfl
  | neg => obtain ⟨_, rfl, _⟩ := neg_beq.mp h; rfl
  | app => obtain ⟨_, rfl, _⟩ := app_beq.mp h; rfl
  | bin op => obtain ⟨_, _, rfl, _⟩ := bin_beq.mp h; cases op <;> rfl

omit [OrderKey κ] in
theorem ne_bin_of_beq {op : Op} {e e' : Coeff κ} (h : (e == e') = true)
    (he : ∀ c d, e ≠ bin op c d) (c d : Coeff κ) : e' ≠ bin op c d := by
  rintro rfl
  cases e with
  | bin op' c' d' =>
    obtain ⟨_, _, heq, _⟩ := bin_beq.mp h
    cases heq
    exact he c' d' rfl
  | lit => obtain ⟨_, heq, _⟩ := lit_beq.mp h; cases heq
  | var => cases var_beq.mp h
  | raw => cases raw_beq.mp h
  | neg => obtain ⟨_, heq, _⟩ := neg_beq.mp h; cases heq
  | app => obtain ⟨_, heq, _⟩ := app_beq.mp h; cases heq

omit [OrderKey κ] in
theorem map_eq_of_beq {β : Type} {f : Coeff κ → β}
    (hf : ∀ s t : Coeff κ, (s == t) = true → f s = f t) {es es' : List (Coeff κ)}
    (h : List.Forall₂ (fun s t => (s == t) = true) es es') : es.map f = es'.map f := by
  induction h with
  | nil => rfl
  | cons hst _ ih => rw [List.map_cons, List.map_cons, hf _ _ hst, ih]

omit [OrderKey κ] in
theorem gathered_of_beq {e e' : Coeff κ} (h : (e == e') = true) (he : e.Gathered) :
    e'.Gathered := by
  cases e with
  | bin op a b =>
    have hranks := map_eq_of_beq (fun _ _ => rank_of_beq) (operands_beq op h)
    obtain ⟨a', b', rfl, _, hb⟩ := bin_beq.mp h
    intro hop
    obtain ⟨hright, hfirst⟩ := he hop
    refine ⟨ne_bin_of_beq hb hright, fun hmul => ?_⟩
    have hpairs : (((bin op a b).operands op).map rank).Pairwise fun m n => 0 < m → 0 < n :=
      List.pairwise_map.mpr (hfirst hmul)
    rw [hranks] at hpairs
    exact List.pairwise_map.mp hpairs
  | lit => obtain ⟨_, rfl, _⟩ := lit_beq.mp h; trivial
  | var => obtain rfl := var_beq.mp h; trivial
  | raw => obtain rfl := raw_beq.mp h; trivial
  | neg => obtain ⟨_, rfl, _⟩ := neg_beq.mp h; trivial
  | app => obtain ⟨_, rfl, _⟩ := app_beq.mp h; trivial

/-! Sorted nodes -/

theorem operands_of_mem_sortOperands {op : Op} {e t : Coeff κ}
    (h : t ∈ sortOperands (e.operands op)) : t.operands op = [t] :=
  operands_of_mem ((sortOperands_perm _).mem_iff.mp h)

omit [RealScalar ρ] [Scalar κ ρ] in
/-- The chain that sorting builds is in order at its root. -/
theorem inOrder_of_sorted {op : Op} {a b n : Coeff κ}
    (h : leftNested? (bin op) (sortOperands ((bin op a b).operands op)) = some n) : n.InOrder := by
  have hops := operands_leftNested h fun t => operands_of_mem_sortOperands
  have hasc := sortOperands_ascending ((bin op a b).operands op)
  have htwo := two_le_length_operands op a b
  rw [← (sortOperands_perm _).length_eq] at htwo
  obtain ⟨init, t, m, hs, -, rfl⟩ := exists_leftNested h htwo
  have ht : t.operands op = [t] :=
    operands_of_mem_sortOperands (hs ▸ List.mem_append_right init (List.mem_singleton_self t))
  exact fun _ => ⟨ne_bin_of_mem_operands (ht ▸ List.mem_singleton_self t), hops ▸ hasc⟩

/-- A node that sorting leaves alone has its literals in front, whatever the keys. -/
theorem gathered_of_sortChain {e : Coeff κ} (h : e.sortChain = e) : e.Gathered := by
  cases e with
  | bin op a b =>
    intro hop
    obtain ⟨n, hn, heq⟩ := sortChain_bin hop a b
    have hroot := (inOrder_of_sorted hn).gathered
    rw [heq] at h
    rcases unlessEqual_eq_or (bin op a b) n with hnew | ⟨-, hbeq⟩
    · rw [← hnew, h] at hroot
      exact hroot hop
    · exact gathered_of_beq hbeq hroot hop
  | _ => trivial

/-- Whether sorting changes no node. -/
abbrev IsSorted (e : Coeff κ) : Prop :=
  e.AllNodes fun x => x.sortChain = x

/-- A left-nested chain with ascending operands is left alone. -/
theorem sortChain_of_ascending {op : Op} {a b : Coeff κ}
    (hasc : Ascending ((bin op a b).operands op))
    (hnest : leftNested? (bin op) ((bin op a b).operands op) = some (bin op a b)) :
    (bin op a b).sortChain = bin op a b := by
  by_cases hop : op.IsChain
  · obtain ⟨n, hn, heq⟩ := sortChain_bin hop a b
    rw [sortOperands_of_ascending hasc, hnest] at hn
    cases hn
    rw [heq, unlessEqual_self]
  · refine sortChain_of_not_chain fun op' c d hop' heq => ?_
    cases heq
    exact hop hop'

/-- Sorting a node whose operands are sorted sorts all nodes, whatever the keys. -/
theorem isSorted_sortChain {op : Op} {a b : Coeff κ} (ha : a.IsSorted) (hb : b.IsSorted) :
    (sortChain (bin op a b)).IsSorted := by
  have hkept (h : (bin op a b).sortChain = bin op a b) : (sortChain (bin op a b)).IsSorted := by
    rw [h]
    exact ⟨h, ha, hb⟩
  by_cases hop : op.IsChain
  · obtain ⟨n, hn, heq⟩ := sortChain_bin hop a b
    rcases unlessEqual_eq_or (bin op a b) n with hnew | ⟨hold, -⟩
    · rw [heq, hnew]
      refine allNodes_leftNested hn (fun t ht => ⟨operands_of_mem_sortOperands ht, ?_⟩) ?_
      · exact allNodes_operands_bin ha hb t ((sortOperands_perm _).mem_iff.mp ht)
      · exact fun x t _ hbegins => sortChain_of_ascending
          ((sortOperands_ascending _).sublist hbegins.sublist)
    · exact hkept (heq.trans hold)
  · refine hkept (sortChain_of_not_chain fun op' c d hop' heq => ?_)
    cases heq
    exact hop hop'

/-- One walk sorts all nodes, whatever the keys. -/
theorem rewrite_sortChain_isSorted (e : Coeff κ) : (e.rewrite sortChain).IsSorted := by
  induction e with
  | lit | var | raw => rfl
  | neg e ih | app f e ih => exact ⟨rfl, ih⟩
  | bin op a b iha ihb => exact isSorted_sortChain iha ihb

theorem rewrite_sortChain_idem (e : Coeff κ) :
    (e.rewrite sortChain).rewrite sortChain = e.rewrite sortChain :=
  rewrite_of_allNodes (rewrite_sortChain_isSorted e)

variable [LawfulOrderKey κ]

theorem orderKey_of_beq {e e' : Coeff κ} (h : (e == e') = true) : e.orderKey = e'.orderKey := by
  rw [orderKey, orderKey, rank_of_beq h, LawfulOrderKey.key_congr h]

theorem ascending_of_beq {es es' : List (Coeff κ)}
    (h : List.Forall₂ (fun s t => (s == t) = true) es es') (hasc : Ascending es) :
    Ascending es' := by
  have hkeys : (es.map orderKey).Pairwise fun a b => keyLE a b = true := List.pairwise_map.mpr hasc
  rw [map_eq_of_beq (fun _ _ => orderKey_of_beq) h] at hkeys
  exact List.pairwise_map.mp hkeys

theorem inOrder_of_beq {e e' : Coeff κ} (h : (e == e') = true) (he : e.InOrder) : e'.InOrder := by
  cases e with
  | bin op a b =>
    have hops := operands_beq op h
    obtain ⟨a', b', rfl, _, hb⟩ := bin_beq.mp h
    intro hop
    obtain ⟨hright, hasc⟩ := he hop
    exact ⟨ne_bin_of_beq hb hright, ascending_of_beq hops hasc⟩
  | lit => obtain ⟨_, rfl, _⟩ := lit_beq.mp h; trivial
  | var => obtain rfl := var_beq.mp h; trivial
  | raw => obtain rfl := raw_beq.mp h; trivial
  | neg => obtain ⟨_, rfl, _⟩ := neg_beq.mp h; trivial
  | app => obtain ⟨_, rfl, _⟩ := app_beq.mp h; trivial

theorem allNodes_inOrder_of_beq {e e' : Coeff κ} (h : (e == e') = true)
    (he : e.AllNodes InOrder) : e'.AllNodes InOrder := by
  induction e generalizing e' with
  | lit => obtain ⟨_, rfl, _⟩ := lit_beq.mp h; trivial
  | var => obtain rfl := var_beq.mp h; trivial
  | raw => obtain rfl := raw_beq.mp h; trivial
  | neg d ih => obtain ⟨_, rfl, hd⟩ := neg_beq.mp h; exact ⟨trivial, ih hd he.2⟩
  | app f d ih => obtain ⟨_, rfl, hd⟩ := app_beq.mp h; exact ⟨trivial, ih hd he.2⟩
  | bin op a b iha ihb =>
    have hroot := inOrder_of_beq h he.1
    obtain ⟨_, _, rfl, ha, hb⟩ := bin_beq.mp h
    exact ⟨hroot, iha ha he.2.1, ihb hb he.2.2⟩

theorem sortChain_inOrder {op : Op} {a b : Coeff κ} (ha : a.AllNodes InOrder)
    (hb : b.AllNodes InOrder) : (sortChain (bin op a b)).AllNodes InOrder := by
  by_cases hop : op.IsChain
  · obtain ⟨n, hn, heq⟩ := sortChain_bin hop a b
    have hnodes : n.AllNodes InOrder := by
      refine allNodes_leftNested hn (fun t ht => ⟨operands_of_mem_sortOperands ht, ?_⟩) ?_
      · exact allNodes_operands_bin ha hb t ((sortOperands_perm _).mem_iff.mp ht)
      · exact fun x t ht hbegins _ _ => ⟨ne_bin_of_mem_operands (ht ▸ List.mem_singleton_self t),
          (sortOperands_ascending _).sublist hbegins.sublist⟩
    rw [heq]
    rcases unlessEqual_eq_or (bin op a b) n with h | ⟨h, hbeq⟩
    · rwa [h]
    · rw [h]
      exact ⟨inOrder_of_beq hbeq hnodes.root, ha, hb⟩
  · rw [sortChain_of_not_chain]
    · exact ⟨fun h => absurd h hop, ha, hb⟩
    · rintro op' a' b' hop' ⟨⟩
      exact hop hop'

/-- One walk puts a tree in order. -/
theorem rewrite_sortChain_inOrder (e : Coeff κ) : (e.rewrite sortChain).AllNodes InOrder := by
  induction e with
  | lit | var | raw => trivial
  | neg e ih | app f e ih => exact ⟨trivial, ih⟩
  | bin op a b iha ihb => exact sortChain_inOrder iha ihb

/-- Sorting that changes nothing in the eyes of the test changes nothing at all. -/
theorem rewrite_sortChain_of_beq {e : Coeff κ} (h : (e.rewrite sortChain == e) = true) :
    e.rewrite sortChain = e :=
  rewrite_sortChain_of_inOrder (allNodes_inOrder_of_beq h (rewrite_sortChain_inOrder e))

omit [LawfulOrderKey κ] in
theorem weight_rewrite_sortChain (e : Coeff κ) : (e.rewrite sortChain).weight = e.weight := by
  induction e with
  | lit | var | raw => rfl
  | neg e ih | app f e ih => simp only [rewrite, weight_sortChain, weight, ih]
  | bin op a b iha ihb => simp only [rewrite, weight_sortChain, weight, iha, ihb]

end Sorting

end Order

end Coeff

end SpinBoson
