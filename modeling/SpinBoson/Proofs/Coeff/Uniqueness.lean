import Mathlib
import SpinBoson.Proofs.Coeff.Collected
import SpinBoson.Proofs.Coeff.Polynomial
import SpinBoson.Proofs.Labels

/-!
Normal forms are determined by their polynomials, with the tolerance zero and keys that tell
coefficients apart: the monomials of the polynomial are those of the sum, and there is one order for
them and for the factors of each.
-/
namespace SpinBoson.Coeff

variable {κ : Type}

/-! Monomials -/

/-- How often each factor occurs. -/
noncomputable def exponents (es : List (Coeff κ)) : Coeff κ →₀ ℕ :=
  (es.map fun e => Finsupp.single e 1).sum

theorem exponents_apply [DecidableEq (Coeff κ)] (es : List (Coeff κ)) (e : Coeff κ) :
    exponents es e = es.count e := by
  induction es with
  | nil => rfl
  | cons f es ih =>
    rw [exponents] at ih
    rw [exponents, List.map_cons, List.sum_cons, Finsupp.add_apply, ih, Finsupp.single_apply,
      List.count_cons, add_comm]
    simp only [beq_iff_eq]

theorem exponents_eq_iff {es fs : List (Coeff κ)} : exponents es = exponents fs ↔ es.Perm fs := by
  have := Classical.decEq (Coeff κ)
  simp only [Finsupp.ext_iff, exponents_apply, List.perm_iff_count]

variable {ρ : Type} [RealScalar ρ] [Scalar κ ρ] [ExactRing κ]

theorem polynomial_of_atom {e : Coeff κ} (h : e.IsAtom) : e.polynomial = .X e := by
  cases e with
  | lit z => cases h.1
  | bin op a b =>
    cases op with
    | add => exact absurd rfl (h.2 _ _ _ (.inl rfl))
    | mul => exact absurd rfl (h.2 _ _ _ (.inr rfl))
    | sub | div | pow => rfl
  | var | raw | neg | app => rfl

theorem prod_atoms {es : List (Coeff κ)} (h : ∀ e ∈ es, e.IsAtom) :
    (es.map polynomial).prod = MvPolynomial.monomial (exponents es) 1 := by
  induction es with
  | nil => rfl
  | cons e es ih =>
    rw [List.forall_mem_cons] at h
    rw [List.map_cons, List.prod_cons, ih h.2, polynomial_of_atom h.1, MvPolynomial.X,
      MvPolynomial.monomial_mul, one_mul]
    rfl

theorem polynomial_ofMonomial {t : Monomial κ} (h : t.Atomic) :
    (ofMonomial t).polynomial = MvPolynomial.monomial (exponents t.2) t.1 := by
  have hterm : symbolic.ofTerm t = MvPolynomial.monomial (exponents t.2) t.1 := by
    change MvPolynomial.C t.1 * (t.2.map polynomial).prod = _
    rw [prod_atoms h, MvPolynomial.C_mul_monomial, mul_one]
  exact (Reading.ofMonomial_number (r := symbolic) fun _ _ => trivial).2.trans hterm

/-! Sums of monomials -/

section Sums

variable [OrderKey κ]

/-- Monomials with different ascending factors and numbers that are not zero, in order. -/
structure IsSumOf (n : Coeff κ) (ms : List (Monomial κ)) : Prop where
  eq_sum : n = (leftNested? add (ms.map ofMonomial)).getD (lit 0)
  atomic : ∀ m ∈ ms, m.Atomic
  significant : ∀ m ∈ ms, m.1 ≠ 0
  factors : ∀ m ∈ ms, Ascending m.2
  nodup : (ms.map Prod.snd).Nodup
  ascending : Ascending (ms.map ofMonomial)

omit [RealScalar ρ] [Scalar κ ρ] [ExactRing κ] in
theorem ascending_operands {op : Op} (hop : op.IsChain) {e : Coeff κ} (h : e.AllNodes InOrder) :
    Ascending (e.operands op) := by
  cases e with
  | bin op' a b =>
    by_cases heq : op' = op
    · subst heq
      exact (h.root hop).2
    · rw [operands_bin_of_ne heq]
      exact List.pairwise_singleton _ _
  | _ => exact List.pairwise_singleton _ _

omit [ExactRing κ] in
theorem ascending_monomial {e : Coeff κ} (h : e.AllNodes InOrder) : Ascending e.monomial.2 :=
  (ascending_operands (.inr rfl) h).filter _

omit [ExactRing κ] in
/-- One monomial that is not zero. -/
theorem isSumOf_singleton {t : Monomial κ} (hatomic : t.Atomic) (hne : t.1 ≠ 0)
    (hasc : Ascending t.2) : IsSumOf (ofMonomial t) [t] where
  eq_sum := rfl
  atomic := List.forall_mem_singleton.mpr hatomic
  significant := List.forall_mem_singleton.mpr hne
  factors := List.forall_mem_singleton.mpr hasc
  nodup := List.nodup_singleton _
  ascending := List.pairwise_singleton _ _

omit [OrderKey κ] in
theorem ne_zero_of_significant {z : κ} (h : Scalar.isNegligible (0 : ρ) z = false) : z ≠ 0 := by
  intro hz
  rw [ExactRing.isNegligible_zero.mpr hz] at h
  cases h

open Classical in
/-- The coefficients of the polynomial of a sum of monomials are their numbers. -/
theorem IsSumOf.coeff_polynomial {n : Coeff κ} {ms : List (Monomial κ)} (h : IsSumOf n ms)
    (x : Coeff κ →₀ ℕ) :
    n.polynomial.coeff x = sumAt (fun m : Monomial κ => exponents m.2) Prod.fst x ms := by
  have hsum : n.polynomial = (ms.map fun m => MvPolynomial.monomial (exponents m.2) m.1).sum := by
    have hterms : (ms.map ofMonomial).map polynomial =
        ms.map fun m => MvPolynomial.monomial (exponents m.2) m.1 := by
      rw [List.map_map]
      exact List.map_congr_left fun m hm => polynomial_ofMonomial (h.atomic m hm)
    rw [h.eq_sum, ← hterms]
    cases hnest : leftNested? add (ms.map ofMonomial) with
    | none =>
      rw [leftNested?_eq_none_iff] at hnest
      rw [hnest]
      exact map_zero MvPolynomial.C
    | some e =>
      exact (Reading.leftNested_number (r := symbolic) (.inl rfl) hnest fun _ _ => trivial).2
  rw [hsum, ← MvPolynomial.lcoeff_apply, map_list_sum, List.map_map]
  refine congrArg List.sum (List.map_congr_left fun m _ => ?_)
  rw [Function.comp_apply, MvPolynomial.lcoeff_apply, MvPolynomial.coeff_monomial]

/-- Distinct keys leave one order for coefficients. -/
theorem eq_of_keyLE (hkey : Function.Injective (orderKey (κ := κ))) {a b : Coeff κ}
    (hab : keyLE a.orderKey b.orderKey = true) (hba : keyLE b.orderKey a.orderKey = true) :
    a = b := by
  rw [keyLE_iff] at hab hba
  exact hkey (Prod.ext (by omega) (by omega))

variable [Nontrivial κ]

theorem exists_monomials_atom {n : Coeff κ} (hn : n.IsAtom) : ∃ ms, IsSumOf n ms := by
  have heq : ofMonomial (1, [n]) = n := by simp [ofMonomial]
  have hsum : IsSumOf (ofMonomial (1, [n])) [(1, [n])] :=
    isSumOf_singleton (List.forall_mem_singleton.mpr hn) one_ne_zero (List.pairwise_singleton _ _)
  exact ⟨_, heq ▸ hsum⟩

omit [Nontrivial κ] in
/-- A sum in normal form is the sum of its groups that are not negligible. -/
theorem isSumOf_groups {a b : Coeff κ} (h : (add a b).InNormalForm (0 : ρ)) :
    IsSumOf (add a b)
      ((add a b).groupTerms.filter fun t => !Scalar.isNegligible (0 : ρ) t.1) := by
  have hroot := h.collected.root
  rw [collect_add, collectSum] at hroot
  have hcollected : ∀ t ∈ (add a b).terms, t.IsCollected (0 : ρ) := fun t ht =>
    ⟨AllNodes.operands h.collected t ht,
      AllNodes.operands (noSumFactor_of_distributed h.distributed) t ht⟩
  obtain ⟨hkept, hnodup⟩ := kept_groupTerms hcollected
  have hatomic := fun m hm => (hkept m hm).atomic
  refine ⟨hroot.symm, hatomic, fun m hm => ne_zero_of_significant (hkept m hm).significant,
    fun m hm => ?_, hnodup, ?_⟩
  · obtain ⟨t, ht, heq⟩ := Groups.mem_of_mem_ofMonomials (List.mem_of_mem_filter hm)
    obtain ⟨f, hf, rfl⟩ := List.mem_map.mp ht
    rw [← heq]
    exact ascending_monomial (AllNodes.operands h.inOrder f hf)
  · cases hnest : leftNested? add (((add a b).groupTerms.filter fun t =>
        !Scalar.isNegligible (0 : ρ) t.1).map ofMonomial) with
    | none =>
      rw [hnest] at hroot
      cases hroot
    | some e =>
      rw [hnest, Option.getD_some] at hroot
      rw [hroot] at hnest
      rw [← terms_leftNested hatomic hnest]
      exact ascending_operands (.inl rfl) h.inOrder

omit [Nontrivial κ] in
/-- A product in normal form is one monomial. -/
theorem isSumOf_product {a b : Coeff κ} (h : (mul a b).InNormalForm (0 : ρ)) :
    IsSumOf (mul a b) [(mul a b).monomial] := by
  have hroot := h.collected.root
  rw [collect_mul, collectProduct] at hroot
  split at hroot
  · cases hroot
  · rename_i hlarge
    have hsum := isSumOf_singleton
      (atomic_monomial (noSumFactor_of_distributed h.distributed) fun _ _ h => by cases h)
      (ne_zero_of_significant (by simpa using hlarge)) (ascending_monomial h.inOrder)
    rwa [hroot] at hsum

/-- A normal form is a sum of monomials. -/
theorem exists_monomials {n : Coeff κ} (h : n.InNormalForm (0 : ρ)) : ∃ ms, IsSumOf n ms := by
  cases n with
  | lit z =>
    by_cases hz : z = 0
    · rw [hz]
      exact ⟨[], rfl, nofun, nofun, nofun, List.nodup_nil, .nil⟩
    · exact ⟨_, isSumOf_singleton (t := (z, [])) nofun hz .nil⟩
  | var | raw | neg | app => exact exists_monomials_atom ⟨rfl, fun _ _ _ _ h => by cases h⟩
  | bin op a b =>
    by_cases hadd : op = .add
    · subst hadd
      exact ⟨_, isSumOf_groups h⟩
    by_cases hmul : op = .mul
    · subst hmul
      exact ⟨_, isSumOf_product h⟩
    · refine exists_monomials_atom ⟨rfl, ?_⟩
      rintro op' c d (rfl | rfl) heq
      · exact hadd (bin.inj heq).1
      · exact hmul (bin.inj heq).1

/-- Normal forms with the same polynomial are equal. -/
theorem eq_of_polynomial (hkey : Function.Injective (orderKey (κ := κ))) {m n : Coeff κ}
    (hm : m.InNormalForm (0 : ρ)) (hn : n.InNormalForm (0 : ρ))
    (h : m.polynomial = n.polynomial) : m = n := by
  classical
  obtain ⟨ms, hms⟩ := exists_monomials hm
  obtain ⟨ns, hns⟩ := exists_monomials hn
  have factors {t u : Monomial κ} (ht : Ascending t.2) (hu : Ascending u.2)
      (heq : exponents t.2 = exponents u.2) : t.2 = u.2 :=
    (exponents_eq_iff.mp heq).eq_of_pairwise (fun _ _ _ _ hab hba => eq_of_keyLE hkey hab hba) ht hu
  have nodup {l : List (Monomial κ)} (hl : ∀ t ∈ l, Ascending t.2)
      (hnodup : (l.map Prod.snd).Nodup) :
      (l.map fun t => exponents t.2).Nodup :=
    hnodup.of_map.map_on fun t ht u hu heq =>
      List.inj_on_of_nodup_map hnodup ht hu (factors (hl t ht) (hl u hu) heq)
  have heq : ms = ns := by
    refine eq_of_sumAt (fun t : Monomial κ => exponents t.2) Prod.fst
      (r := fun t u => keyLE (ofMonomial t).orderKey (ofMonomial u).orderKey = true)
      (nodup hms.factors hms.nodup) (nodup hns.factors hns.nodup)
      (List.pairwise_map.mp hms.ascending) (List.pairwise_map.mp hns.ascending) ?_
      hms.significant hns.significant ?_ ?_
    · intro t u ht hu htu hut
      rw [← monomial_ofMonomial (hms.atomic t ht), eq_of_keyLE hkey htu hut,
        monomial_ofMonomial (hns.atomic u hu)]
    · intro t ht u hu hlabel hnumber
      exact Prod.ext hnumber (factors (hms.factors t ht) (hns.factors u hu) hlabel)
    · intro t _
      rw [← hms.coeff_polynomial, ← hns.coeff_polynomial, h]
  rw [hms.eq_sum, hns.eq_sum, heq]

end Sums

end SpinBoson.Coeff
