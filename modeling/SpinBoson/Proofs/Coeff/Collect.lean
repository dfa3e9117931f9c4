import Mathlib.Algebra.Order.BigOperators.Group.List
import Mathlib.Tactic.Ring
import SpinBoson.Proofs.Coeff.Groups

/-!
Collecting like terms never makes a coefficient heavier, and a coefficient in order with finite
literals that it does not make lighter is left alone.
-/
namespace SpinBoson

/-- The laws of the equality test on scalars that normal forms rely on. -/
class LawfulTest (κ : Type) {ρ : Type} [RealScalar ρ] [Scalar κ ρ] : Prop extends
    PartialEquivBEq κ where
  one_beq_one : ((1 : κ) == 1) = true

/-- Magnitudes that do not tell apart numbers that test equal. -/
class LawfulMagnitude (κ : Type) {ρ : Type} [RealScalar ρ] [Scalar κ ρ] : Prop where
  magnitude_congr : ∀ {z w : κ}, (z == w) = true → Scalar.magnitude z = Scalar.magnitude w

/-- Whether a product with one leaves a number alone; infinite numbers are not left alone. -/
def Scalar.IsFinite {κ ρ : Type} [RealScalar ρ] [Scalar κ ρ] (z : κ) : Prop :=
  (1 * z == z) = true

namespace Coeff

variable {κ ρ : Type} [RealScalar ρ] [Scalar κ ρ]

/-- Whether all literals are finite. -/
def FiniteLiterals (e : Coeff κ) : Prop :=
  e.AllNodes fun x => ∀ z, x = lit z → Scalar.IsFinite z

/-! The weight of monomials -/

section Monomials

/-- The product of the weights of some factors. -/
def weights (es : List (Coeff κ)) : Nat :=
  (es.map weight).prod

@[simp]
theorem weights_cons (e : Coeff κ) (es : List (Coeff κ)) :
    weights (e :: es) = e.weight * weights es := by
  simp [weights]

theorem one_le_weights (es : List (Coeff κ)) : 1 ≤ weights es := by
  induction es with
  | nil => exact Nat.le_refl 1
  | cons e es ih =>
    rw [weights_cons]
    exact Nat.mul_pos (Nat.lt_of_lt_of_le Nat.two_pos (two_le_weight e)) ih

theorem weight_leftNested_mul {es : List (Coeff κ)} {e : Coeff κ}
    (h : leftNested? mul es = some e) : e.weight = weights es := by
  induction h using leftNested?_induction with
  | single e => simp [weights]
  | append es e t _ ih =>
    rw [weights, List.map_append, List.prod_append, ← weights, ← ih, List.map_singleton,
      List.prod_singleton]
    rfl

theorem weight_leftNested_add {es : List (Coeff κ)} {e : Coeff κ}
    (h : leftNested? add es = some e) : e.weight + 1 = (es.map fun t => t.weight + 1).sum := by
  induction h using leftNested?_induction with
  | single e => simp
  | append es e t _ ih =>
    rw [List.map_append, List.sum_append, ← ih]
    simp only [weight, Op.weigh, List.map_singleton, List.sum_singleton]
    omega

/-- The numbers among factors count twice each, and the rest is symbolic. -/
theorem weights_split (es : List (Coeff κ)) :
    weights es = 2 ^ (es.filterMap literal?).length *
      weights (es.filter fun e => e.literal?.isNone) := by
  induction es with
  | nil => rfl
  | cons e es ih =>
    cases e with
    | lit z =>
      simp only [weights_cons, ih, List.filterMap_cons, literal?, List.length_cons, List.filter_cons,
        Option.isNone_some, Bool.false_eq_true, if_false, weight, Nat.pow_succ]
      ring
    | _ =>
      simp only [weights_cons, ih, List.filterMap_cons, literal?, List.filter_cons,
        Option.isNone_none, if_true]
      ring

theorem weight_eq_monomial (e : Coeff κ) :
    e.weight = 2 ^ (e.factors.filterMap literal?).length * weights e.monomial.2 := by
  rw [weight_factors]
  exact weights_split e.factors

theorem weight_ofMonomial_le (t : Monomial κ) : (ofMonomial t).weight ≤ 2 * weights t.2 := by
  rcases leftNested_ofMonomial t with ⟨-, hn⟩ | hn
  · rw [weight_leftNested_mul hn]
    omega
  · rw [weight_leftNested_mul hn, weights_cons]
    exact Nat.le_refl _

theorem le_weight_ofMonomial (t : Monomial κ) : weights t.2 ≤ (ofMonomial t).weight := by
  rcases leftNested_ofMonomial t with ⟨-, hn⟩ | hn
  · rw [weight_leftNested_mul hn]
  · rw [weight_leftNested_mul hn, weights_cons]
    exact Nat.le_mul_of_pos_left _ Nat.two_pos

theorem weight_ofMonomial_one [LawfulTest κ] {es : List (Coeff κ)} (h : es ≠ []) :
    (ofMonomial ((1 : κ), es)).weight = weights es :=
  weight_leftNested_mul
    (leftNested_ofMonomial_of_one (t := (1, es)) LawfulTest.one_beq_one h)

theorem weight_monomial_le [LawfulTest κ] (e : Coeff κ) :
    (ofMonomial e.monomial).weight ≤ e.weight := by
  have hle := weight_ofMonomial_le e.monomial
  rw [weight_eq_monomial e]
  cases hnum : e.factors.filterMap literal? with
  | nil =>
    have hone : e.monomial = (1, e.monomial.2) := by simp [monomial, hnum]
    have hne : e.monomial.2 ≠ [] := by
      intro hnil
      obtain ⟨f, hf⟩ := List.exists_mem_of_ne_nil _ (operands_ne_nil .mul e)
      cases hlit : f.literal? with
      | none =>
        have hmem : f ∈ e.monomial.2 := List.mem_filter.mpr ⟨hf, by simp [hlit]⟩
        simp [hnil] at hmem
      | some z =>
        have hmem : z ∈ e.factors.filterMap literal? := List.mem_filterMap.mpr ⟨f, hf, hlit⟩
        simp [hnum] at hmem
    rw [hone, weight_ofMonomial_one hne, List.length_nil, Nat.pow_zero, Nat.one_mul]
  | cons z zs =>
    refine Nat.le_trans hle (Nat.mul_le_mul_right _ ?_)
    rw [List.length_cons, Nat.pow_succ]
    have := Nat.one_le_two_pow (n := zs.length)
    omega

end Monomials

/-! Monomials of coefficients in order -/

section InOrder

variable [LawfulTest κ]

theorem beq_self_of_finite {e : Coeff κ} (h : e.FiniteLiterals) : (e == e) = true := by
  induction e with
  | lit z =>
    have hz : (1 * z == z) = true := h z rfl
    exact lit_beq.mpr ⟨z, rfl, PartialEquivBEq.trans (BEq.symm hz) hz⟩
  | var => exact var_beq.mpr rfl
  | raw => exact raw_beq.mpr rfl
  | neg e ih => exact neg_beq.mpr ⟨e, rfl, ih h.2⟩
  | app f e ih => exact app_beq.mpr ⟨e, rfl, ih h.2⟩
  | bin op a b iha ihb => exact bin_beq.mpr ⟨a, b, rfl, iha h.2.1, ihb h.2.2⟩

omit [LawfulTest κ] in
theorem foldl_beq {op : Op} {es es' : List (Coeff κ)}
    (h : List.Forall₂ (fun s t => (s == t) = true) es es') {e e' : Coeff κ}
    (he : (e == e') = true) : (es.foldl (bin op) e == es'.foldl (bin op) e') = true := by
  induction h generalizing e e' with
  | nil => exact he
  | cons hst _ ih => exact ih (bin_beq.mpr ⟨_, _, rfl, he, hst⟩)

omit [LawfulTest κ] in
theorem leftNested_beq {op : Op} {es es' : List (Coeff κ)} {e e' : Coeff κ}
    (h : List.Forall₂ (fun s t => (s == t) = true) es es')
    (he : leftNested? (bin op) es = some e) (he' : leftNested? (bin op) es' = some e') :
    (e == e') = true := by
  cases h with
  | nil => cases he
  | cons hst hrest =>
    cases he
    cases he'
    exact foldl_beq hrest hst

theorem forall₂_beq_self {es : List (Coeff κ)} (h : ∀ t ∈ es, FiniteLiterals t) :
    List.Forall₂ (fun s t => (s == t) = true) es es :=
  List.forall₂_same.mpr fun t ht => beq_self_of_finite (h t ht)

omit [LawfulTest κ] [RealScalar ρ] [Scalar κ ρ] in
theorem rank_pos_iff {e : Coeff κ} : 0 < e.rank ↔ e.literal? = none := by
  cases e with
  | bin op => cases op <;> simp [rank, literal?]
  | _ => simp [rank, literal?]

omit [LawfulTest κ] [RealScalar ρ] [Scalar κ ρ] in
/-- Behind a symbolic operand there are only symbolic ones if literals stand in front. -/
theorem symbolic_of_literalsFirst {e : Coeff κ} {es : List (Coeff κ)}
    (h : LiteralsFirst (e :: es)) (he : e.literal? = none) : ∀ t ∈ e :: es, t.literal? = none := by
  intro t ht
  rcases List.mem_cons.mp ht with rfl | ht
  · exact he
  · exact rank_pos_iff.mp ((List.pairwise_cons.mp h).1 t ht (rank_pos_iff.mpr he))

omit [LawfulTest κ] [RealScalar ρ] [Scalar κ ρ] in
theorem Gathered.literalsFirst {e : Coeff κ} (h : e.Gathered) : LiteralsFirst e.factors := by
  cases e with
  | bin op a b =>
    by_cases hop : op = .mul
    · subst hop
      exact (h (.inr rfl)).2 rfl
    · simp [factors, operands_bin_of_ne hop]
  | _ => simp [factors, operands, operandsBefore]

omit [LawfulTest κ] [RealScalar ρ] [Scalar κ ρ] in
theorem split_of_symbolic {es : List (Coeff κ)} (h : ∀ t ∈ es, t.literal? = none) :
    es.filterMap literal? = [] ∧ es.filter (fun e => e.literal?.isNone) = es := by
  constructor
  · exact List.filterMap_eq_nil_iff.mpr h
  · exact List.filter_eq_self.mpr fun t ht => by simp [h t ht]

omit [LawfulTest κ] in
/-- Of literals that stand in front there is one at most, or the monomial is lighter. -/
theorem monomial_cases {e : Coeff κ} (h : LiteralsFirst e.factors) :
    e.factors = e.monomial.2 ∧ e.monomial.1 = 1 ∨
      (∃ z, e.factors = lit z :: e.monomial.2 ∧ e.monomial.1 = 1 * z) ∨
      (ofMonomial e.monomial).weight < e.weight := by
  cases hops : e.factors with
  | nil => exact absurd hops (operands_ne_nil .mul e)
  | cons f rest =>
    rw [hops] at h
    cases hlit : f.literal? with
    | none =>
      obtain ⟨hnum, hsym⟩ := split_of_symbolic (symbolic_of_literalsFirst h hlit)
      exact .inl ⟨by simp only [monomial, hops, hsym],
        by simp only [monomial, hops, hnum, List.foldl_nil]⟩
    | some z =>
      obtain rfl : f = lit z := by
        cases f with
        | lit w => cases hlit; rfl
        | _ => cases hlit
      have hcons : (lit z :: rest).filterMap literal? = z :: rest.filterMap literal? := rfl
      cases hnum : rest.filterMap literal? with
      | nil =>
        have hsym : (lit z :: rest).filter (fun e => e.literal?.isNone) = rest :=
          (split_of_symbolic (List.filterMap_eq_nil_iff.mp hnum)).2
        refine .inr (.inl ⟨z, ?_, ?_⟩)
        · simp only [monomial, hops, hsym]
        · simp only [monomial, hops, hcons, hnum, List.foldl_cons, List.foldl_nil]
      | cons w ws =>
        refine .inr (.inr (Nat.lt_of_le_of_lt (weight_ofMonomial_le _) ?_))
        rw [weight_eq_monomial e]
        refine Nat.mul_lt_mul_of_pos_right ?_ (one_le_weights _)
        rw [hops, hcons, hnum, List.length_cons, List.length_cons, Nat.pow_succ, Nat.pow_succ]
        have := Nat.one_le_two_pow (n := ws.length)
        omega

/-- A coefficient with its literals in front is that of its monomial, or heavier. -/
theorem ofMonomial_monomial {e : Coeff κ} (h : e.AllNodes Gathered) (hfin : e.FiniteLiterals) :
    (ofMonomial e.monomial == e) = true ∨ (ofMonomial e.monomial).weight < e.weight := by
  have hnest := leftNested_operands (.inr rfl) h
  rw [← factors] at hnest
  have hfactors : ∀ t ∈ e.factors, FiniteLiterals t := hfin.operands
  rcases monomial_cases h.root.literalsFirst with ⟨hall, hone⟩ | ⟨w, hall, hz⟩ | hlt
  · have hne : e.monomial.2 ≠ [] := hall ▸ operands_ne_nil .mul e
    have hone' : (e.monomial.1 == 1) = true := by rw [hone]; exact LawfulTest.one_beq_one
    rw [hall, leftNested_ofMonomial_of_one hone' hne] at hnest
    rw [Option.some.inj hnest]
    exact .inl (beq_self_of_finite hfin)
  · rw [hall] at hnest hfactors
    obtain ⟨hw, hrest⟩ := List.forall_mem_cons.mp hfactors
    have hlit : ((lit e.monomial.1 : Coeff κ) == lit w) = true :=
      lit_beq.mpr ⟨w, rfl, hz ▸ hw w rfl⟩
    rcases leftNested_ofMonomial e.monomial with ⟨-, hn⟩ | hn
    · right
      rw [weight_leftNested_mul hn, weight_leftNested_mul hnest, weights_cons]
      have := one_le_weights e.monomial.2
      simp only [weight]
      omega
    · exact .inl (leftNested_beq (.cons hlit (forall₂_beq_self hrest)) hn hnest)
  · exact .inr hlt

end InOrder

/-! Groups of like terms -/

/-- What terms with these monomials weigh in a sum, and one more. -/
def cost (ts : List (Monomial κ)) : Nat :=
  (ts.map fun t => (ofMonomial t).weight + 1).sum

section Groups

variable [LawfulTest κ] [OrderKey κ]

omit [LawfulTest κ] [OrderKey κ] in
theorem weights_of_beq {es es' : List (Coeff κ)} (h : (es == es') = true) :
    weights es = weights es' := by
  induction es generalizing es' with
  | nil =>
    cases es' with
    | nil => rfl
    | cons => cases h
  | cons e es ih =>
    cases es' with
    | nil => cases h
    | cons e' es' =>
      obtain ⟨he, hes⟩ := Bool.and_eq_true_iff.mp h
      rw [weights_cons, weights_cons, weight_of_beq he, ih hes]

omit [LawfulTest κ] in
/-- A term opens a group of its own, or it costs less than its weight. -/
theorem insert_cost (g : Groups κ) (e : Coeff κ) :
    (g.insert e.monomial).members.toList = g.members.toList ++ [e.monomial] ∨
      cost (g.insert e.monomial).members.toList < cost g.members.toList + (e.weight + 1) := by
  rcases g.insert_members e.monomial with ⟨before, m, after, hg, heq, hinsert⟩ | ⟨-, hinsert⟩
  · right
    have hnew := weight_ofMonomial_le (m.1 + e.monomial.1, m.2)
    have hold := le_weight_ofMonomial m
    have hterm : weights m.2 ≤ e.weight := by
      rw [weights_of_beq heq, weight_eq_monomial e]
      exact Nat.le_mul_of_pos_left _ (Nat.two_pow_pos _)
    rw [hinsert, hg]
    simp only [cost, List.map_append, List.map_cons, List.sum_append, List.sum_cons]
    dsimp only at hnew
    omega
  · exact .inl hinsert

omit [OrderKey κ] in
theorem cost_monomials_le (es : List (Coeff κ)) :
    cost (es.map monomial) ≤ (es.map fun t => t.weight + 1).sum := by
  rw [cost, List.map_map]
  exact List.sum_le_sum fun t _ => Nat.succ_le_succ (weight_monomial_le t)

theorem ofMonomials_cost (es : List (Coeff κ)) :
    (Groups.ofMonomials (es.map monomial)).members.toList = es.map monomial ∨
      cost (Groups.ofMonomials (es.map monomial)).members.toList <
        (es.map fun t => t.weight + 1).sum := by
  induction es using List.reverseRecOn with
  | nil => exact .inl rfl
  | append_singleton es e ih =>
    have hmono := weight_monomial_le e
    have hrest := cost_monomials_le es
    rw [List.map_append, List.map_singleton, Groups.ofMonomials_append_singleton, List.map_append,
      List.sum_append, List.map_singleton, List.sum_singleton]
    rcases insert_cost (Groups.ofMonomials (es.map monomial)) e with hpush | hlt
    · refine ih.imp (fun heq => by rw [hpush, heq]) fun hlt => ?_
      rw [hpush, cost, List.map_append, List.sum_append, ← cost, List.map_singleton,
        List.sum_singleton]
      omega
    · right
      rcases ih with heq | hlt'
      · rw [heq] at hlt
        omega
      · omega

omit [LawfulTest κ] [OrderKey κ] in
theorem cost_filter (p : Monomial κ → Bool) (ts : List (Monomial κ)) :
    ts.filter p = ts ∨ cost (ts.filter p) < cost ts := by
  induction ts with
  | nil => exact .inl rfl
  | cons t ts ih =>
    simp only [List.filter_cons, cost] at ih ⊢
    split
    · rcases ih with heq | hlt
      · exact .inl (by rw [heq])
      · right
        simp only [List.map_cons, List.sum_cons]
        omega
    · right
      simp only [List.map_cons, List.sum_cons]
      rcases ih with heq | hlt
      · rw [heq]
        omega
      · omega

/-- Whether the terms of a sum all stay when it is collected, none with the number of another. -/
structure TermsStay (tolerance : ρ) (e : Coeff κ) : Prop where
  groups : e.groupTerms = e.terms.map monomial
  significant : ∀ t ∈ e.terms, Scalar.isNegligible tolerance t.monomial.1 = false
  collected : leftNested? add (e.terms.map fun t => ofMonomial t.monomial) =
    some (e.collectSum tolerance)

/-- A collected sum is lighter, unless it is made of the terms one by one. -/
theorem collectSum_lighter (tolerance : ρ) (a b : Coeff κ) :
    ((add a b).collectSum tolerance).weight < (add a b).weight ∨ (add a b).TermsStay tolerance := by
  have htwo := two_le_weight a
  have htwo' := two_le_weight b
  have hweight : (add a b).weight = a.weight + b.weight + 1 := rfl
  have hsum := weight_terms (add a b)
  have hcost := ofMonomials_cost (add a b).terms
  change (add a b).groupTerms = _ ∨ cost (add a b).groupTerms < _ at hcost
  have hfilter := cost_filter (fun t => !Scalar.isNegligible tolerance t.1) (add a b).groupTerms
  cases hn : leftNested? add
      (((add a b).groupTerms.filter fun t => !Scalar.isNegligible tolerance t.1).map ofMonomial) with
  | none =>
    left
    rw [collectSum, hn, Option.getD_none, hweight]
    simp only [weight]
    omega
  | some r =>
    have hcollected : (add a b).collectSum tolerance = r := by rw [collectSum, hn, Option.getD_some]
    have hr := weight_leftNested_add hn
    rw [List.map_map] at hr
    change r.weight + 1 = cost _ at hr
    rw [hcollected]
    rcases hfilter with hall | hlt
    · rcases hcost with heq | hlt
      · right
        refine ⟨heq, fun t ht => ?_, ?_⟩
        · have hmem := List.filter_eq_self.mp hall t.monomial (heq ▸ List.mem_map_of_mem ht)
          simpa using hmem
        · rw [hall, heq, List.map_map] at hn
          rw [hcollected]
          exact hn
      · left
        rw [hall] at hr
        omega
    · left
      rcases hcost with heq | hlt'
      · have hle : cost (add a b).groupTerms ≤ _ := heq ▸ cost_monomials_le (add a b).terms
        omega
      · omega

omit [LawfulTest κ] [OrderKey κ] in
theorem collect_of_lt {e n : Coeff κ} (h : n.weight < e.weight) :
    (unlessEqual e n).weight < e.weight := by
  rcases unlessEqual_eq_or e n with heq | ⟨_, hbeq⟩
  · rwa [heq]
  · rw [weight_of_beq hbeq] at h
    exact absurd h (Nat.lt_irrefl _)

omit [LawfulTest κ] [OrderKey κ] in
theorem collectProduct_le (tolerance : ρ) (a b : Coeff κ) :
    ((mul a b).collectProduct tolerance).weight < (mul a b).weight ∨
      Scalar.isNegligible tolerance (mul a b).monomial.1 = false ∧
        (mul a b).collectProduct tolerance = ofMonomial (mul a b).monomial := by
  unfold collectProduct
  dsimp only
  split
  · left
    calc
      2 < 2 * 2 := by decide
      _ ≤ a.weight * b.weight := Nat.mul_le_mul (two_le_weight a) (two_le_weight b)
  · exact .inr ⟨by simp_all, rfl⟩

theorem collect_weight_le (tolerance : ρ) (e : Coeff κ) :
    (e.collect tolerance).weight ≤ e.weight := by
  unfold collect
  split
  · rename_i a b
    rcases collectSum_lighter tolerance a b with hlt | hstay
    · exact Nat.le_of_lt (collect_of_lt hlt)
    · have hr := weight_leftNested_add hstay.collected
      have hsum := weight_terms (add a b)
      rw [List.map_map] at hr
      have hle : ((add a b).terms.map ((fun t => t.weight + 1) ∘ fun t => ofMonomial t.monomial)).sum ≤
          ((add a b).terms.map fun t => t.weight + 1).sum :=
        List.sum_le_sum fun t _ => Nat.succ_le_succ (weight_monomial_le t)
      rcases unlessEqual_eq_or (add a b) ((add a b).collectSum tolerance) with heq | ⟨heq, _⟩
      · rw [heq]
        exact Nat.le_of_succ_le_succ (hr.trans_le (hle.trans_eq hsum.symm))
      · rw [heq]
  · rename_i a b
    rcases collectProduct_le tolerance a b with hlt | ⟨-, hn⟩
    · exact Nat.le_of_lt (collect_of_lt hlt)
    · rcases unlessEqual_eq_or (mul a b) ((mul a b).collectProduct tolerance) with heq | ⟨heq, _⟩
      · rw [heq, hn]
        exact weight_monomial_le _
      · rw [heq]
  · exact Nat.le_refl _

omit [LawfulTest κ] [OrderKey κ] in
theorem unlessEqual_of_beq {e n : Coeff κ} (h : (n == e) = true) : unlessEqual e n = e := by
  simp [unlessEqual, h]

/-- Collecting leaves a gathered coefficient with finite literals alone or makes it lighter. -/
theorem collect_lighter (tolerance : ρ) {e : Coeff κ} (h : e.AllNodes Gathered)
    (hfin : e.FiniteLiterals) :
    e.collect tolerance = e ∨ (e.collect tolerance).weight < e.weight := by
  unfold collect
  split
  · rename_i a b
    rcases collectSum_lighter tolerance a b with hlt | ⟨-, -, hn⟩
    · exact .inr (collect_of_lt hlt)
    · by_cases hall : ∀ t ∈ (add a b).terms, (ofMonomial t.monomial == t) = true
      · left
        refine unlessEqual_of_beq (leftNested_beq ?_ hn (leftNested_operands (.inl rfl) h))
        rw [List.forall₂_map_left_iff]
        exact List.forall₂_same.mpr hall
      · right
        apply collect_of_lt
        simp only [not_forall] at hall
        obtain ⟨t, ht, hne⟩ := hall
        have hlt := (ofMonomial_monomial (h.operands t ht) (hfin.operands t ht)).resolve_left hne
        have hr := weight_leftNested_add hn
        have hsum := weight_terms (add a b)
        rw [List.map_map] at hr
        have hlt : ((add a b).terms.map
            ((fun t => t.weight + 1) ∘ fun t => ofMonomial t.monomial)).sum <
              ((add a b).terms.map fun t => t.weight + 1).sum :=
          List.sum_lt_sum _ _ (fun u _ => Nat.succ_le_succ (weight_monomial_le u))
            ⟨t, ht, Nat.succ_lt_succ hlt⟩
        exact Nat.lt_of_succ_lt_succ (hr.trans_lt (hlt.trans_eq hsum.symm))
  · rename_i a b
    rcases collectProduct_le tolerance a b with hlt | ⟨-, hn⟩
    · exact .inr (collect_of_lt hlt)
    · rcases ofMonomial_monomial h hfin with hbeq | hlt
      · exact .inl (unlessEqual_of_beq (by rw [hn]; exact hbeq))
      · exact .inr (collect_of_lt (by rw [hn]; exact hlt))
  · exact .inl rfl

/-! What collecting gathers -/

omit [LawfulTest κ] [OrderKey κ] in
theorem literalsFirst_cons {e : Coeff κ} {es : List (Coeff κ)} (h : ∀ t ∈ es, t.literal? = none) :
    LiteralsFirst (e :: es) := by
  have hpos : ∀ t ∈ es, 0 < t.rank := fun t ht => rank_pos_iff.mpr (h t ht)
  refine List.pairwise_cons.mpr ⟨fun t ht _ => hpos t ht, ?_⟩
  exact List.pairwise_of_forall_mem_list fun _ _ t ht _ => hpos t ht

omit [LawfulTest κ] [RealScalar ρ] [Scalar κ ρ] [OrderKey κ] in
theorem gathered_leftNested_mul {es : List (Coeff κ)} {n : Coeff κ}
    (h : leftNested? mul es = some n) (hes : ∀ f ∈ es, f.factors = [f] ∧ f.AllNodes Gathered)
    (hfirst : LiteralsFirst es) : n.AllNodes Gathered := by
  refine allNodes_leftNested h hes ?_
  intro x u hu hbegins _ _
  refine ⟨ne_bin_of_mem_operands (hu ▸ List.mem_singleton_self u), fun _ => ?_⟩
  exact hfirst.sublist hbegins.sublist

omit [LawfulTest κ] [OrderKey κ] in
theorem gathered_ofMonomial {t : Monomial κ}
    (h : ∀ f ∈ t.2, f.literal? = none ∧ f.factors = [f] ∧ f.AllNodes Gathered) :
    (ofMonomial t).AllNodes Gathered := by
  have hfirst : LiteralsFirst (lit t.1 :: t.2) := literalsFirst_cons fun f hf => (h f hf).1
  have hall : ∀ f ∈ t.2, f.factors = [f] ∧ f.AllNodes Gathered := fun f hf => (h f hf).2
  rcases leftNested_ofMonomial t with ⟨-, hn⟩ | hn
  · exact gathered_leftNested_mul hn hall (List.Pairwise.of_cons hfirst)
  · exact gathered_leftNested_mul hn (List.forall_mem_cons.mpr ⟨⟨rfl, trivial⟩, hall⟩) hfirst

omit [OrderKey κ] [LawfulTest κ] in
theorem gathered_monomial {e : Coeff κ} (h : ∀ t ∈ e.factors, t.AllNodes Gathered) :
    (ofMonomial e.monomial).AllNodes Gathered := by
  refine gathered_ofMonomial fun f hf => ?_
  obtain ⟨hmem, hlit⟩ := List.mem_filter.mp hf
  exact ⟨Option.isNone_iff_eq_none.mp hlit, operands_of_mem hmem, h f hmem⟩

omit [LawfulTest κ] [RealScalar ρ] [Scalar κ ρ] [OrderKey κ] in
theorem eq_singleton_of_leftNested_mul {es : List (Coeff κ)} {c d : Coeff κ}
    (h : leftNested? mul es = some (add c d)) : es = [add c d] := by
  generalize hsum : add c d = e at h
  induction h using leftNested?_induction with
  | single e => rfl
  | append es e t _ _ => cases hsum

omit [LawfulTest κ] [OrderKey κ] in
theorem factors_of_ofMonomial_eq_add {t : Monomial κ} {c d : Coeff κ}
    (h : ofMonomial t = add c d) : t.2 = [add c d] := by
  rcases leftNested_ofMonomial t with ⟨-, hn⟩ | hn
  · exact eq_singleton_of_leftNested_mul (h ▸ hn)
  · cases eq_singleton_of_leftNested_mul (h ▸ hn)

omit [LawfulTest κ] [OrderKey κ] in
/-- A product of numbers and a single sum is heavier than the sum. -/
theorem ofMonomial_monomial_ne_add {t : Coeff κ} (ht : ∀ c d, t ≠ add c d)
    (hweight : (ofMonomial t.monomial).weight = t.weight) (c d : Coeff κ) :
    ofMonomial t.monomial ≠ add c d := by
  intro heq
  have hrest := factors_of_ofMonomial_eq_add heq
  have hsplit := weight_eq_monomial t
  rw [hrest, ← hweight, heq, weights_cons] at hsplit
  have hpos : 0 < (add c d).weight := Nat.lt_of_lt_of_le Nat.two_pos (two_le_weight _)
  have hone : 2 ^ (t.factors.filterMap literal?).length = 1 :=
    Nat.eq_of_mul_eq_mul_right hpos (by simpa [weights] using hsplit.symm)
  have hnumbers : t.factors.filterMap literal? = [] :=
    List.length_eq_zero_iff.mp ((Nat.pow_eq_one.mp hone).resolve_left (by decide))
  have hall : t.monomial.2 = t.factors :=
    (split_of_symbolic (List.filterMap_eq_nil_iff.mp hnumbers)).2
  exact ht c d (eq_of_operands (hall.symm.trans hrest))

omit [OrderKey κ] in
theorem weight_of_sum_eq {es : List (Coeff κ)}
    (h : (es.map fun t => (ofMonomial t.monomial).weight + 1).sum =
      (es.map fun t => t.weight + 1).sum) :
    ∀ t ∈ es, (ofMonomial t.monomial).weight = t.weight := by
  intro t ht
  refine Nat.le_antisymm (weight_monomial_le t) (Nat.le_of_not_lt fun hlt => ?_)
  refine Nat.ne_of_lt (List.sum_lt_sum _ _ (fun u _ => ?_) ⟨t, ht, Nat.succ_lt_succ hlt⟩) h
  exact Nat.succ_le_succ (weight_monomial_le u)

omit [LawfulTest κ] [OrderKey κ] in
theorem gathered_unlessEqual {op : Op} {a b n : Coeff κ} (ha : a.AllNodes Gathered)
    (hb : b.AllNodes Gathered) (hn : n.AllNodes Gathered) :
    (unlessEqual (bin op a b) n).AllNodes Gathered := by
  rcases unlessEqual_eq_or (bin op a b) n with heq | ⟨heq, hbeq⟩
  · rwa [heq]
  · rw [heq]
    exact ⟨gathered_of_beq hbeq hn.root, ha, hb⟩

omit [LawfulTest κ] [OrderKey κ] in
theorem weight_unlessEqual (e n : Coeff κ) : (unlessEqual e n).weight = n.weight := by
  rcases unlessEqual_eq_or e n with heq | ⟨heq, hbeq⟩
  · rw [heq]
  · rw [heq, weight_of_beq hbeq]

/-- Where collecting does not make a node lighter it gathers it. -/
theorem gathered_collect (tolerance : ρ) {op : Op} {a b : Coeff κ} (ha : a.AllNodes Gathered)
    (hb : b.AllNodes Gathered)
    (h : ((bin op a b).collect tolerance).weight = (bin op a b).weight) :
    ((bin op a b).collect tolerance).AllNodes Gathered := by
  have hoperands : ∀ t ∈ (bin op a b).operands op, t.AllNodes Gathered :=
    allNodes_operands_bin ha hb
  by_cases hadd : op = .add
  · subst hadd
    change (unlessEqual _ _).weight = _ at h
    rw [weight_unlessEqual] at h
    refine gathered_unlessEqual ha hb ?_
    obtain ⟨-, -, hn⟩ := (collectSum_lighter tolerance a b).resolve_left (Nat.not_lt.mpr h.ge)
    have hr := weight_leftNested_add hn
    rw [h, List.map_map] at hr
    have hweights := weight_of_sum_eq (hr.symm.trans (weight_terms (add a b)))
    refine allNodes_leftNested hn (fun u hu => ?_) ?_
    · obtain ⟨t, ht, rfl⟩ := List.mem_map.mp hu
      refine ⟨operands_of_not_bin ?_, gathered_monomial (hoperands t ht).operands⟩
      exact ofMonomial_monomial_ne_add (ne_bin_of_mem_operands ht) (hweights t ht)
    · exact fun x u hu _ _ _ => ⟨ne_bin_of_mem_operands (hu ▸ List.mem_singleton_self u), nofun⟩
  · by_cases hmul : op = .mul
    · subst hmul
      change (unlessEqual _ _).weight = _ at h
      rw [weight_unlessEqual] at h
      refine gathered_unlessEqual ha hb ?_
      rw [((collectProduct_le tolerance a b).resolve_left (Nat.not_lt.mpr h.ge)).2]
      exact gathered_monomial hoperands
    · have hsame : (bin op a b).collect tolerance = bin op a b := by
        cases op <;> first | rfl | contradiction
      rw [hsame]
      exact ⟨fun hop => absurd hop (by rintro (rfl | rfl) <;> contradiction), ha, hb⟩

/-- A walk that collects makes a tree lighter or leaves it gathered. -/
theorem rewrite_collect_gathered (tolerance : ρ) {e : Coeff κ}
    (h : (e.rewrite (collect tolerance)).weight = e.weight) :
    (e.rewrite (collect tolerance)).AllNodes Gathered := by
  have hle := rewrite_weight_le (κ := κ) (collect_weight_le tolerance)
  induction e with
  | lit | var | raw => trivial
  | neg e ih | app f e ih =>
    simp only [rewrite, collect, weight] at h
    exact ⟨trivial, ih (by omega)⟩
  | bin op a b iha ihb =>
    rw [rewrite] at h ⊢
    have hnode := collect_weight_le tolerance
      (bin op (a.rewrite (collect tolerance)) (b.rewrite (collect tolerance)))
    rw [h] at hnode
    have ha : (a.rewrite (collect tolerance)).weight = a.weight := by
      refine Nat.le_antisymm (hle a) (Nat.le_of_not_lt fun hlt => absurd hnode (Nat.not_le.mpr ?_))
      exact Nat.lt_of_le_of_lt (op.weigh_le (Nat.le_refl _) (hle b))
        (op.weigh_lt_left hlt (two_le_weight b))
    have hb : (b.rewrite (collect tolerance)).weight = b.weight := by
      refine Nat.le_antisymm (hle b) (Nat.le_of_not_lt fun hlt => absurd hnode (Nat.not_le.mpr ?_))
      exact Nat.lt_of_le_of_lt (op.weigh_le (hle a) (Nat.le_refl _))
        (op.weigh_lt_right hlt (two_le_weight a))
    refine gathered_collect tolerance (iha ha) (ihb hb) (h.trans ?_)
    simp only [weight, ha, hb]

end Groups

end Coeff

end SpinBoson
