import SpinBoson.Proofs.ClosedForms
import SpinBoson.Proofs.Coeff.Collected
import SpinBoson.Proofs.Labels

/-!
What collecting drops. The walk collects every product and sum below a node before the node itself, so
a term is lost with the first part of it that is negligible, whatever the whole amounts to. Where no
part is lost before, the whole decides.
-/
namespace SpinBoson.Coeff

variable {κ ρ : Type}

/-! Parts -/

/-- The nodes that make up a chain of `op`, from its root down to its operands. -/
def chainNodes (op : Op) : Coeff κ → List (Coeff κ)
  | bin op' a b => if op' = op then bin op' a b :: (chainNodes op a ++ chainNodes op b) else []
  | _ => []

abbrev products (e : Coeff κ) : List (Coeff κ) :=
  chainNodes .mul e

abbrev sums (e : Coeff κ) : List (Coeff κ) :=
  chainNodes .add e

/-- Whether no factor is a sum. -/
def IsTerm (e : Coeff κ) : Prop :=
  ∀ f ∈ e.factors, ∀ c d, f ≠ add c d

theorem chainNodes_of_not_bin {op : Op} {e : Coeff κ} (h : ∀ a b, e ≠ bin op a b) :
    e.chainNodes op = [] := by
  cases e with
  | bin op' a b =>
    refine if_neg fun heq => ?_
    subst heq
    exact h a b rfl
  | _ => rfl

theorem isTerm_mul {a b : Coeff κ} : (mul a b).IsTerm ↔ a.IsTerm ∧ b.IsTerm := by
  simp only [IsTerm, factors, operands_bin_self, List.forall_mem_append]

theorem IsTerm.isAtom {e f : Coeff κ} (h : e.IsTerm) (hf : f ∈ e.factors)
    (hlit : f.literal? = none) : f.IsAtom := by
  refine ⟨hlit, ?_⟩
  rintro op a b (rfl | rfl)
  · exact h f hf a b
  · exact ne_bin_of_mem_operands hf a b

/-- A term that is no product is a literal or symbolic. -/
theorem IsTerm.cases {e : Coeff κ} (h : e.IsTerm) (hmul : ∀ a b, e ≠ mul a b) :
    (∃ z, e = lit z) ∨ e.IsAtom := by
  have hself : e ∈ e.factors := by
    rw [factors, operands_of_not_bin hmul]
    exact List.mem_singleton_self e
  cases hlit : e.literal? with
  | none => exact .inr (h.isAtom hself hlit)
  | some z =>
    cases e with
    | lit w => exact .inl ⟨w, rfl⟩
    | _ => cases hlit

variable [RealScalar ρ] [Scalar κ ρ] [OrderKey κ]

/-- Collects at every node, from the leaves up. -/
def collecting (tolerance : ρ) : Pass (Coeff κ) :=
  .ofRule .post (collectRule tolerance : Rule κ (Except Error))

theorem run_collecting (tolerance : ρ) (e : Coeff κ) :
    (collecting tolerance).run e = .ok (e.rewrite (collect tolerance)) :=
  up_ofCoeff _ _ e

/-- The number of a term and its symbolic factors, with what is to collect inside them collected. -/
def walked (tolerance : ρ) (e : Coeff κ) : Monomial κ :=
  (e.monomial.1, e.monomial.2.map (rewrite (collect tolerance)))

variable {tolerance : ρ}

theorem IsAtom.rewrite {e : Coeff κ} (h : e.IsAtom) :
    (e.rewrite (collect tolerance)).IsAtom := by
  cases e with
  | lit z => cases h.1
  | bin op a b =>
    have hadd : op ≠ .add := fun hop => h.2 op a b (.inl hop) rfl
    have hmul : op ≠ .mul := fun hop => h.2 op a b (.inr hop) rfl
    have hsame (x y : Coeff κ) : (bin op x y).collect tolerance = bin op x y := by
      cases op <;> first | rfl | contradiction
    rw [Coeff.rewrite, hsame]
    refine ⟨rfl, ?_⟩
    rintro op' c d (rfl | rfl) heq
    · exact hadd (bin.inj heq).1
    · exact hmul (bin.inj heq).1
  | var | raw | neg | app => exact ⟨rfl, fun _ _ _ _ heq => by cases heq⟩

theorem IsTerm.atomic_walked {e : Coeff κ} (h : e.IsTerm) : (e.walked tolerance).Atomic := by
  intro g hg
  obtain ⟨f, hf, rfl⟩ := List.mem_map.mp hg
  obtain ⟨hmem, hlit⟩ := mem_monomial.mp hf
  exact (h.isAtom hmem hlit).rewrite

/-! Products -/

section Products

variable [ExactRing κ]

omit [OrderKey κ] in
theorem monomial_lit (z : κ) : (lit z : Coeff κ).monomial = (z, []) :=
  monomial_of_factors (by simp) (.inr rfl)

omit [OrderKey κ] in
theorem IsAtom.monomial {e : Coeff κ} (h : e.IsAtom) : e.monomial = (1, [e]) :=
  monomial_of_factors (List.forall_mem_singleton.mpr h.1) (.inl ⟨h.operands (.inr rfl), rfl⟩)

omit [OrderKey κ] in
theorem monomial_mul (a b : Coeff κ) :
    (mul a b).monomial =
      (a.monomial.1 * b.monomial.1, a.monomial.2 ++ b.monomial.2) := by
  simp only [Coeff.monomial, factors, operands_bin_self, List.filterMap_append, List.filter_append,
    ← List.prod_eq_foldl, List.prod_append]

theorem walked_mul (a b : Coeff κ) :
    (mul a b).walked tolerance =
      ((a.walked tolerance).1 * (b.walked tolerance).1,
        (a.walked tolerance).2 ++ (b.walked tolerance).2) := by
  simp only [walked, monomial_mul, List.map_append]

theorem collect_mul_of_negligible {a b : Coeff κ}
    (h : Scalar.isNegligible tolerance (a.monomial.1 * b.monomial.1) = true) :
    (mul a b).collect tolerance = lit 0 := by
  rw [collect_mul, collectProduct, monomial_mul]
  exact if_pos h

theorem rewrite_collect_operand {e : Coeff κ} (h : e.IsTerm) (hmul : ∀ a b, e ≠ mul a b) :
    e.products = [] ∧ e.rewrite (collect tolerance) = ofMonomial (e.walked tolerance) := by
  refine ⟨chainNodes_of_not_bin hmul, ?_⟩
  rcases h.cases hmul with ⟨z, rfl⟩ | hatom
  · rw [walked, monomial_lit]
    rfl
  · simp only [walked, hatom.monomial, List.map_singleton, ofMonomial, LawfulTest.one_beq_one,
      if_true, List.foldl_nil]

/--
A walk leaves nothing of a term if a product in it is negligible, and otherwise the number of the term
in front of its factors.
-/
theorem rewrite_collect_term (hzero : Scalar.isNegligible tolerance (0 : κ) = true) {e : Coeff κ}
    (h : e.IsTerm) :
    (∃ p ∈ e.products, Scalar.isNegligible tolerance p.monomial.1 = true) ∧
        e.rewrite (collect tolerance) = lit 0 ∨
      (∀ p ∈ e.products, Scalar.isNegligible tolerance p.monomial.1 = false) ∧
        e.rewrite (collect tolerance) = ofMonomial (e.walked tolerance) := by
  induction e using operands_induction .mul with
  | single e he =>
    obtain ⟨hnone, hwalk⟩ := rewrite_collect_operand h (ne_bin_of_operands he)
    exact .inr ⟨by simp [hnone], hwalk⟩
  | bin a b iha ihb =>
    obtain ⟨ha, hb⟩ := isTerm_mul.mp h
    have hproducts : (mul a b).products = mul a b :: (a.products ++ b.products) := rfl
    rw [hproducts, rewrite]
    -- an operand that nothing is left of makes the product zero
    rcases iha ha with ⟨⟨p, hp, hneg⟩, hzeroa⟩ | ⟨hkeepa, hwalka⟩
    · refine .inl ⟨⟨p, List.mem_cons_of_mem _ (List.mem_append_left _ hp), hneg⟩, ?_⟩
      rw [hzeroa, collect_mul_of_negligible]
      rwa [monomial_lit, zero_mul]
    rcases ihb hb with ⟨⟨p, hp, hneg⟩, hzerob⟩ | ⟨hkeepb, hwalkb⟩
    · refine .inl ⟨⟨p, List.mem_cons_of_mem _ (List.mem_append_right _ hp), hneg⟩, ?_⟩
      rw [hzerob, collect_mul_of_negligible]
      rwa [monomial_lit, mul_zero]
    have hmonomial : (mul (a.rewrite (collect tolerance)) (b.rewrite (collect tolerance))).monomial =
        (mul a b).walked tolerance := by
      rw [monomial_mul, hwalka, hwalkb, monomial_ofMonomial ha.atomic_walked,
        monomial_ofMonomial hb.atomic_walked, walked_mul]
    rw [collect_mul, collectProduct, hmonomial]
    cases hroot : Scalar.isNegligible tolerance (mul a b).monomial.1 with
    | true => exact .inl ⟨⟨_, List.mem_cons_self, hroot⟩, if_pos hroot⟩
    | false =>
      refine .inr ⟨?_, if_neg (Bool.eq_false_iff.mp hroot)⟩
      exact List.forall_mem_cons.mpr ⟨hroot, List.forall_mem_append.mpr ⟨hkeepa, hkeepb⟩⟩

end Products

/-! Numbers under factors -/

section Groups

variable [ExactRing κ]

open Classical in
/-- What the numbers in front of the same factors add up to. -/
noncomputable def amountIn (es : List (Coeff κ)) (ms : List (Monomial κ)) : κ :=
  sumAt Prod.snd Prod.fst es ms

omit [OrderKey κ] in
theorem amountIn_append (es : List (Coeff κ)) (ms ns : List (Monomial κ)) :
    amountIn es (ms ++ ns) = amountIn es ms + amountIn es ns := by
  simp only [amountIn, sumAt, List.map_append, List.sum_append]

omit [OrderKey κ] in
theorem amountIn_sum (es fs : List (Coeff κ)) (z w : κ) :
    amountIn es [(z + w, fs)] = amountIn es [(z, fs)] + amountIn es [(w, fs)] := by
  simp only [amountIn, sumAt, List.map_singleton, List.sum_singleton]
  split
  · rfl
  · exact (add_zero 0).symm

theorem amountIn_insert (es : List (Coeff κ)) (g : Groups κ) (t : Monomial κ) :
    amountIn es (g.insert t).members.toList =
      amountIn es g.members.toList + amountIn es [t] := by
  rcases g.insert_members t with ⟨before, m, after, hg, heq, hinsert⟩ | ⟨-, hinsert⟩
  · have hcons (n : Monomial κ) : amountIn es (n :: after) = amountIn es [n] + amountIn es after :=
      amountIn_append es [n] after
    have hterm : amountIn es [t] = amountIn es [(t.1, m.2)] := by rw [eq_of_beq heq]
    rw [hinsert, hg, amountIn_append, amountIn_append, hcons, hcons, amountIn_sum, hterm]
    ring
  · rw [hinsert, amountIn_append]

/-- Grouping moves numbers only within the groups of their factors. -/
theorem amountIn_groupTerms (es : List (Coeff κ)) (e : Coeff κ) :
    amountIn es e.groupTerms = amountIn es (e.terms.map monomial) := by
  rw [groupTerms]
  induction e.terms.map monomial using List.reverseRecOn with
  | nil => rfl
  | append_singleton ts t ih =>
    rw [Groups.ofMonomials_append_singleton, amountIn_insert, ih, amountIn_append]

/-- The number in front of some factors in a sum. -/
noncomputable def amount (es : List (Coeff κ)) (e : Coeff κ) : κ :=
  amountIn es (e.terms.map monomial)

omit [OrderKey κ] in
theorem amount_add (es : List (Coeff κ)) (a b : Coeff κ) :
    amount es (add a b) = amount es a + amount es b := by
  rw [amount, terms, operands_bin_self, List.map_append, amountIn_append]
  rfl

/-- The groups of a sum that are not negligible. -/
def kept (tolerance : ρ) (e : Coeff κ) : List (Monomial κ) :=
  e.groupTerms.filter fun t => !Scalar.isNegligible tolerance t.1

theorem nodup_groupTerms (e : Coeff κ) : (e.groupTerms.map Prod.snd).Nodup :=
  Groups.ofMonomials_nodup (e.terms.map monomial)

theorem nodup_kept (e : Coeff κ) : ((e.kept tolerance).map Prod.snd).Nodup :=
  (nodup_groupTerms e).sublist (List.filter_sublist.map _)

theorem amount_of_mem_groupTerms {e : Coeff κ} {m : Monomial κ} (hm : m ∈ e.groupTerms) :
    amount m.2 e = m.1 := by
  classical
  rw [amount, ← amountIn_groupTerms]
  exact sumAt_of_mem (nodup_groupTerms e) hm

/-- A group is kept if and only if its number is not negligible. -/
theorem mem_kept_iff (hzero : Scalar.isNegligible tolerance (0 : κ) = true) {e : Coeff κ} {z : κ}
    {es : List (Coeff κ)} :
    (z, es) ∈ e.kept tolerance ↔ z = amount es e ∧ Scalar.isNegligible tolerance z = false := by
  classical
  rw [kept, List.mem_filter, Bool.not_eq_true']
  refine and_congr_left fun hlarge => ⟨fun hmem => (amount_of_mem_groupTerms hmem).symm, fun hz => ?_⟩
  -- a number that is not negligible stands somewhere
  have hne : amount es e ≠ 0 := by
    rintro heq
    rw [hz, heq, hzero] at hlarge
    cases hlarge
  rw [amount, ← amountIn_groupTerms, amountIn] at hne
  obtain ⟨m, hm, rfl⟩ := exists_of_sumAt_ne_zero hne
  rw [hz, amount_of_mem_groupTerms hm]
  exact hm

theorem amountIn_kept (hzero : Scalar.isNegligible tolerance (0 : κ) = true) (es : List (Coeff κ))
    (e : Coeff κ) :
    amountIn es (e.kept tolerance) =
      if Scalar.isNegligible tolerance (amount es e) then 0 else amount es e := by
  classical
  split
  · rename_i hneg
    refine sumAt_eq_zero fun m hm heq => ?_
    obtain ⟨hz, hlarge⟩ := (mem_kept_iff hzero).mp hm
    rw [hz, heq, hneg] at hlarge
    cases hlarge
  · rename_i hlarge
    have hmem := (mem_kept_iff hzero).mpr ⟨rfl, Bool.eq_false_iff.mpr hlarge⟩
    exact sumAt_of_mem (nodup_kept e) hmem

/-- The sum of some monomials. -/
def sumOf (ms : List (Monomial κ)) : Coeff κ :=
  (leftNested? add (ms.map ofMonomial)).getD (lit 0)

omit [OrderKey κ] in
theorem monomials_sumOf {ms : List (Monomial κ)} (h : ∀ m ∈ ms, m.Atomic) :
    (sumOf ms).terms.map monomial = if ms = [] then [(0, [])] else ms := by
  rw [sumOf]
  cases hn : leftNested? add (ms.map ofMonomial) with
  | none =>
    obtain rfl := List.map_eq_nil_iff.mp ((leftNested?_eq_none_iff _ _).mp hn)
    exact congrArg (fun t => [t]) (monomial_lit 0)
  | some n =>
    have hne : ms ≠ [] := by
      rintro rfl
      cases hn
    rw [Option.getD_some, if_neg hne, terms_leftNested h hn, List.map_map]
    exact (List.map_congr_left fun m hm => monomial_ofMonomial (h m hm)).trans (List.map_id ms)

omit [OrderKey κ] in
theorem amount_sumOf {ms : List (Monomial κ)} (h : ∀ m ∈ ms, m.Atomic) (es : List (Coeff κ)) :
    amount es (sumOf ms) = amountIn es ms := by
  rw [amount, monomials_sumOf h]
  split
  · rename_i hnil
    subst hnil
    simp [amountIn, sumAt]
  · rfl

omit [ExactRing κ] in
theorem atomic_kept {e : Coeff κ} (h : ∀ m ∈ e.terms.map monomial, m.Atomic) :
    ∀ m ∈ e.kept tolerance, m.Atomic := by
  intro m hm
  obtain ⟨t, ht, heq⟩ := Groups.mem_of_mem_ofMonomials (List.mem_filter.mp hm).1
  exact fun f hf => h t ht f (heq ▸ hf)

/-- Whether a sum is made of monomials with these numbers in front of their factors. -/
structure HasAmounts (f : List (Coeff κ) → κ) (e : Coeff κ) : Prop where
  atomic : ∀ m ∈ e.terms.map monomial, m.Atomic
  amounts : ∀ es, amount es e = f es

omit [OrderKey κ] in
theorem hasAmounts_add {f g : List (Coeff κ) → κ} {a b : Coeff κ} (ha : a.HasAmounts f)
    (hb : b.HasAmounts g) : (add a b).HasAmounts fun es => f es + g es where
  atomic := by
    rw [terms, operands_bin_self, List.map_append]
    exact List.forall_mem_append.mpr ⟨ha.atomic, hb.atomic⟩
  amounts es := by rw [amount_add, ha.amounts, hb.amounts]

theorem collect_add_eq (a b : Coeff κ) :
    (add a b).collect tolerance = sumOf ((add a b).kept tolerance) :=
  collect_add tolerance a b

/-- Collecting a sum drops the numbers that are negligible. -/
theorem hasAmounts_collect (hzero : Scalar.isNegligible tolerance (0 : κ) = true)
    {f : List (Coeff κ) → κ} {a b : Coeff κ} (h : (add a b).HasAmounts f) :
    ((add a b).collect tolerance).HasAmounts fun es =>
      if Scalar.isNegligible tolerance (f es) then 0 else f es := by
  have hatomic : ∀ m ∈ (add a b).kept tolerance, m.Atomic := atomic_kept h.atomic
  rw [collect_add_eq]
  refine ⟨?_, fun es => ?_⟩
  · rw [monomials_sumOf hatomic]
    split
    · exact List.forall_mem_singleton.mpr fun f hf => by cases hf
    · exact hatomic
  · rw [amount_sumOf hatomic, amountIn_kept hzero, h.amounts]

end Groups

/-! Sums -/

section Sums

variable [ExactRing κ]

/-- What the terms of a sum put in front of some factors, before anything is dropped. -/
noncomputable def total (tolerance : ρ) (e : Coeff κ) (es : List (Coeff κ)) : κ :=
  amountIn es (e.terms.map (walked tolerance))

theorem total_add (a b : Coeff κ) (es : List (Coeff κ)) :
    (add a b).total tolerance es = a.total tolerance es + b.total tolerance es := by
  rw [total, terms, operands_bin_self, List.map_append, amountIn_append]
  rfl

/-- Whether no term of a sum is lost before the terms are added up, unless it is zero. -/
def KeepsTerms (tolerance : ρ) (e : Coeff κ) : Prop :=
  ∀ t ∈ e.terms, t.IsTerm ∧
    ∀ p ∈ t.products, Scalar.isNegligible tolerance p.monomial.1 = true → t.monomial.1 = 0

/-- Whether only zeros are lost when the sums within a sum are collected. -/
def KeepsTotals (tolerance : ρ) (e : Coeff κ) : Prop :=
  ∀ p ∈ e.sums, ∀ es, Scalar.isNegligible tolerance (p.total tolerance es) = true →
    p.total tolerance es = 0

theorem rewrite_hasAmounts_term (hzero : Scalar.isNegligible tolerance (0 : κ) = true) {e : Coeff κ}
    (h : e.KeepsTerms tolerance) (hadd : ∀ a b, e ≠ add a b) :
    (e.rewrite (collect tolerance)).HasAmounts (e.total tolerance) := by
  have hself : e.terms = [e] := operands_of_not_bin hadd
  obtain ⟨hterm, hkeeps⟩ := h e (hself ▸ List.mem_singleton_self e)
  have htotal (es : List (Coeff κ)) : e.total tolerance es = amountIn es [e.walked tolerance] := by
    rw [total, hself, List.map_singleton]
  rcases rewrite_collect_term hzero hterm with ⟨⟨p, hp, hneg⟩, hlost⟩ | ⟨-, hwalk⟩
  · have hwalked : (e.walked tolerance).1 = 0 := hkeeps p hp hneg
    rw [hlost]
    refine ⟨List.forall_mem_singleton.mpr (fun f hf => by cases hf), fun es => ?_⟩
    rw [htotal]
    change amountIn es [monomial (lit 0)] = _
    simp [amountIn, sumAt, monomial_lit, hwalked]
  · have hmonomials : (e.rewrite (collect tolerance)).terms.map monomial = [e.walked tolerance] := by
      rw [hwalk, terms_ofMonomial hterm.atomic_walked, List.map_singleton,
        monomial_ofMonomial hterm.atomic_walked]
    refine ⟨?_, fun es => ?_⟩
    · rw [hmonomials]
      exact List.forall_mem_singleton.mpr hterm.atomic_walked
    · rw [htotal, amount, hmonomials]

omit [OrderKey κ] [ExactRing κ] in
theorem KeepsTerms.of_add {a b : Coeff κ} (h : (add a b).KeepsTerms tolerance) :
    a.KeepsTerms tolerance ∧ b.KeepsTerms tolerance := by
  rwa [KeepsTerms, terms, operands_bin_self, List.forall_mem_append] at h

/-- Where only zeros are lost on the way, the walk leaves the totals. -/
theorem rewrite_hasAmounts (hzero : Scalar.isNegligible tolerance (0 : κ) = true) {e : Coeff κ}
    (h : e.KeepsTerms tolerance) (hsums : e.KeepsTotals tolerance) :
    (e.rewrite (collect tolerance)).HasAmounts (e.total tolerance) := by
  induction e using operands_induction .add with
  | single e he => exact rewrite_hasAmounts_term hzero h (ne_bin_of_operands he)
  | bin a b iha ihb =>
    obtain ⟨ha, hb⟩ := h.of_add
    have hnodes : (add a b).sums = add a b :: (a.sums ++ b.sums) := rfl
    rw [KeepsTotals, hnodes, List.forall_mem_cons, List.forall_mem_append] at hsums
    obtain ⟨hroot, hsumsa, hsumsb⟩ := hsums
    have hadd := hasAmounts_collect hzero (hasAmounts_add (iha ha hsumsa) (ihb hb hsumsb))
    refine ⟨hadd.atomic, fun es => ?_⟩
    have hamount := hadd.amounts es
    rw [← total_add] at hamount
    rw [rewrite, hamount]
    split
    · rename_i hneg
      exact (hroot es hneg).symm
    · rfl

/--
Where no part of a term is negligible before the whole is, a walk that collects leaves nothing of a
product if and only if its number is negligible, and otherwise the number in front of its factors.
It drops a group of a sum if and only if the total of the group is negligible, if no other than
zeros are lost on the way.
-/
theorem collecting_drops_negligible (hzero : Scalar.isNegligible tolerance (0 : κ) = true) :
    (∀ a b : Coeff κ, (mul a b).IsTerm →
      (∀ p ∈ (mul a b).products, Scalar.isNegligible tolerance p.monomial.1 = true →
        Scalar.isNegligible tolerance (mul a b).monomial.1 = true) →
      ((collecting tolerance).run (mul a b) = .ok (lit 0) ↔
        Scalar.isNegligible tolerance (mul a b).monomial.1 = true) ∧
      (Scalar.isNegligible tolerance (mul a b).monomial.1 = false →
        (collecting tolerance).run (mul a b) = .ok (ofMonomial ((mul a b).walked tolerance)))) ∧
    ∀ a b : Coeff κ, (add a b).KeepsTerms tolerance → a.KeepsTotals tolerance →
      b.KeepsTotals tolerance →
      ∃ ms : List (Monomial κ), (collecting tolerance).run (add a b) = .ok (sumOf ms) ∧
        (ms.map Prod.snd).Nodup ∧
        ∀ z es, (z, es) ∈ ms ↔
          z = (add a b).total tolerance es ∧ Scalar.isNegligible tolerance z = false := by
  constructor
  · intro a b hterm hkeeps
    rw [run_collecting]
    rcases rewrite_collect_term hzero hterm with ⟨⟨p, hp, hneg⟩, hlost⟩ | ⟨hall, hwalk⟩
    · have hroot := hkeeps p hp hneg
      exact ⟨iff_of_true (congrArg _ hlost) hroot, fun hlarge => by rw [hroot] at hlarge; cases hlarge⟩
    · have hroot := hall (mul a b) List.mem_cons_self
      refine ⟨iff_of_false (fun hrun => ?_) (Bool.eq_false_iff.mp hroot), fun _ => congrArg _ hwalk⟩
      have hlost := congrArg monomial (hwalk.symm.trans (Except.ok.inj hrun))
      rw [monomial_ofMonomial hterm.atomic_walked, monomial_lit] at hlost
      have hnumber : (mul a b).monomial.1 = 0 := congrArg Prod.fst hlost
      rw [hnumber, hzero] at hroot
      cases hroot
  · intro a b hterms ha hb
    have hamounts := hasAmounts_add (rewrite_hasAmounts hzero hterms.of_add.1 ha)
      (rewrite_hasAmounts hzero hterms.of_add.2 hb)
    refine ⟨_, (run_collecting tolerance _).trans (congrArg _ (collect_add_eq _ _)), nodup_kept _, ?_⟩
    intro z es
    rw [mem_kept_iff hzero, hamounts.amounts, total_add]

end Sums

/-! Decimals -/

/-- A decimal as a number. -/
noncomputable def decimal (d : Decimal) : ClosedNumber :=
  Scalar.ofReal (RealScalar.ofDecimal d : ClosedReal)

theorem decimal_val (d : Decimal) :
    (decimal d).1 = ((d.digits * (10 : ℝ) ^ d.exponent : ℝ) : ℂ) := rfl

theorem decimal_mul (m n : ℕ) (e f : ℤ) :
    decimal ⟨m, e⟩ * decimal ⟨n, f⟩ = decimal ⟨m * n, e + f⟩ := by
  refine ClosedNumber.ext ?_
  change (decimal ⟨m, e⟩).1 * (decimal ⟨n, f⟩).1 = _
  rw [decimal_val, decimal_val, decimal_val, ← Complex.ofReal_mul, Nat.cast_mul,
    zpow_add₀ (by norm_num : (10 : ℝ) ≠ 0)]
  congr 1
  ring

theorem decimal_add (m n : ℕ) (e : ℤ) :
    decimal ⟨m, e⟩ + decimal ⟨n, e⟩ = decimal ⟨m + n, e⟩ := by
  refine ClosedNumber.ext ?_
  change (decimal ⟨m, e⟩).1 + (decimal ⟨n, e⟩).1 = _
  rw [decimal_val, decimal_val, decimal_val, ← Complex.ofReal_add, Nat.cast_add, add_mul]

theorem isNegligible_decimal (d d' : Decimal) :
    Scalar.isNegligible (RealScalar.ofDecimal d : ClosedReal) (decimal d') = true ↔
      d'.digits * (10 : ℝ) ^ d'.exponent ≤ d.digits * (10 : ℝ) ^ d.exponent := by
  have hnorm : ‖(decimal d').1‖ = d'.digits * (10 : ℝ) ^ d'.exponent := by
    rw [decimal_val, Complex.norm_real, Real.norm_of_nonneg (by positivity)]
  rw [Scalar.isNegligible, decide_eq_true_iff, ← hnorm]
  rfl

theorem isNegligible_half_zero :
    Scalar.isNegligible (Operator.half : ClosedReal) (0 : ClosedNumber) = true := by
  have hzero : decimal ⟨0, 0⟩ = 0 := by
    refine ClosedNumber.ext ?_
    rw [decimal_val, Nat.cast_zero, zero_mul, Complex.ofReal_zero]
    rfl
  rw [← hzero, Operator.half, isNegligible_decimal]
  norm_num

/-- Natural numbers but zero are not negligible with a tolerance of one half. -/
theorem isNegligible_half_of_pos {n : ℕ} (hn : 1 ≤ n) :
    Scalar.isNegligible (Operator.half : ClosedReal) (decimal ⟨n, 0⟩) = false := by
  have hle : (1 : ℝ) ≤ n := by exact_mod_cast hn
  rw [← Bool.not_eq_true, Operator.half, isNegligible_decimal]
  norm_num
  linarith

/-- The product of a decimal with a variable. -/
noncomputable abbrev scaled (d : Decimal) (name : String) : Coeff ClosedNumber :=
  mul (lit (decimal d)) (var name)

theorem monomial_scaled (d : Decimal) (name : String) :
    (scaled d name).monomial = (decimal d, [var name]) :=
  monomial_of_factors (List.forall_mem_singleton.mpr rfl) (.inr rfl)

theorem isTerm_scaled (d : Decimal) (name : String) : (scaled d name).IsTerm := by
  simp [IsTerm, operands, operandsBefore]

theorem keepsTerms_scaled {n : ℕ} (hn : 1 ≤ n) (name : String) :
    (scaled ⟨n, 0⟩ name).KeepsTerms (Operator.half : ClosedReal) := by
  refine List.forall_mem_singleton.mpr ⟨isTerm_scaled _ name, fun p hp hneg => ?_⟩
  obtain rfl : p = scaled ⟨n, 0⟩ name := by simpa [products, chainNodes] using hp
  rw [monomial_scaled, isNegligible_half_of_pos hn] at hneg
  cases hneg

theorem total_scaled (d : Decimal) (name : String) :
    (scaled d name).total (Operator.half : ClosedReal) [var name] = decimal d := by
  have hwalked : (scaled d name).walked (Operator.half : ClosedReal) = (decimal d, [var name]) := by
    rw [walked, monomial_scaled]
    rfl
  change amountIn _ [(scaled d name).walked _] = _
  simp [amountIn, sumAt, hwalked]

/--
With a tolerance of one half the walk multiplies the numbers of `2 * x * 3` and adds those of
`2 * x + 3 * x`.
-/
theorem collecting_drops_negligible_half :
    Scalar.isNegligible (Operator.half : ClosedReal) (0 : ClosedNumber) = true ∧
      (collecting (Operator.half : ClosedReal)).run
          (mul (scaled ⟨2, 0⟩ "x") (lit (decimal ⟨3, 0⟩))) =
        .ok (ofMonomial (decimal ⟨6, 0⟩, [var "x"])) ∧
      ∃ ms, (collecting (Operator.half : ClosedReal)).run
          (add (scaled ⟨2, 0⟩ "x") (scaled ⟨3, 0⟩ "x")) = .ok (sumOf ms) ∧
        (decimal ⟨5, 0⟩, [var "x"]) ∈ ms := by
  obtain ⟨hproducts, hsums⟩ := collecting_drops_negligible isNegligible_half_zero
  refine ⟨isNegligible_half_zero, ?_, ?_⟩
  · have hterm : (mul (scaled ⟨2, 0⟩ "x") (lit (decimal ⟨3, 0⟩))).IsTerm := by
      simp [IsTerm, operands, operandsBefore]
    have hmonomial : (mul (scaled ⟨2, 0⟩ "x") (lit (decimal ⟨3, 0⟩))).monomial =
        (decimal ⟨6, 0⟩, [var "x"]) := by
      rw [monomial_mul, monomial_scaled, monomial_lit, decimal_mul]
      rfl
    have hkept : ∀ p ∈ (mul (scaled ⟨2, 0⟩ "x") (lit (decimal ⟨3, 0⟩))).products,
        Scalar.isNegligible (Operator.half : ClosedReal) p.monomial.1 = false := by
      simp only [products, chainNodes, if_true, List.append_nil, List.forall_mem_cons, hmonomial,
        monomial_scaled]
      exact ⟨isNegligible_half_of_pos (by decide), isNegligible_half_of_pos (by decide), by simp⟩
    have hrun := (hproducts _ _ hterm fun p hp hneg => by rw [hkept p hp] at hneg; cases hneg).2
    rw [walked, hmonomial] at hrun
    exact hrun (isNegligible_half_of_pos (by decide))
  · have hterms : (add (scaled ⟨2, 0⟩ "x") (scaled ⟨3, 0⟩ "x")).KeepsTerms
        (Operator.half : ClosedReal) := by
      rw [KeepsTerms, terms, operands_bin_self]
      exact List.forall_mem_append.mpr
        ⟨keepsTerms_scaled (by decide) "x", keepsTerms_scaled (by decide) "x"⟩
    have hnone (d : Decimal) : (scaled d "x").KeepsTotals (Operator.half : ClosedReal) := by
      simp [KeepsTotals, sums, chainNodes]
    obtain ⟨ms, hrun, -, hms⟩ := hsums _ _ hterms (hnone _) (hnone _)
    refine ⟨ms, hrun, (hms _ _).mpr ⟨?_, isNegligible_half_of_pos (by decide)⟩⟩
    rw [total_add, total_scaled, total_scaled, decimal_add]

/--
With a tolerance of one half nothing is left of `0.25 * x * 8`, since its first product is negligible,
while the number of the whole is not.
-/
theorem collecting_drops_significant :
    (collecting (Operator.half : ClosedReal)).run
          (mul (scaled ⟨25, -2⟩ "x") (lit (decimal ⟨8, 0⟩))) = .ok (lit 0) ∧
      Scalar.isNegligible (Operator.half : ClosedReal)
        (mul (scaled ⟨25, -2⟩ "x") (lit (decimal ⟨8, 0⟩))).monomial.1 = false := by
  have hterm : (mul (scaled ⟨25, -2⟩ "x") (lit (decimal ⟨8, 0⟩))).IsTerm := by
    simp [IsTerm, operands, operandsBefore]
  have hpart : Scalar.isNegligible (Operator.half : ClosedReal)
      (scaled ⟨25, -2⟩ "x").monomial.1 = true := by
    rw [monomial_scaled, Operator.half, isNegligible_decimal]
    norm_num
  constructor
  · rw [run_collecting]
    rcases rewrite_collect_term isNegligible_half_zero hterm with ⟨-, hlost⟩ | ⟨hkept, -⟩
    · rw [hlost]
    · rw [hkept (scaled ⟨25, -2⟩ "x") (by simp [products, chainNodes])] at hpart
      cases hpart
  · rw [monomial_mul, monomial_scaled, monomial_lit, decimal_mul, ← Bool.not_eq_true,
      Operator.half, isNegligible_decimal]
    norm_num

end SpinBoson.Coeff
