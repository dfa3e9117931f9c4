import SpinBoson.Proofs.Canonical.Convergence
import SpinBoson.Proofs.Operator.TermSum

/-!
What the steps that act on coefficients make of a sum of terms, over exact scalars and with the
tolerance zero: the sum of the terms once they are sorted and merged and their coefficients are in
normal form.
-/
namespace SpinBoson

namespace Pass

/-- A repetition that ends by itself does so from its first iteration on. -/
theorem settles_of_fixedPoint {α : Type} [BEq α] {nested : String → α → Prop} {cap : Nat}
    {pass : Pass α} {a : α} (h : (fixedPoint cap pass).Settles nested a) :
    pass.Settles nested a := by
  obtain ⟨n, hn⟩ := Nat.exists_eq_add_one_of_ne_zero (Nat.ne_of_gt (iterations_pos cap))
  rw [Settles, hn] at h
  exact h.1

end Pass

namespace Canonical

open Operator Pass

variable {κ ρ : Type} [RealScalar ρ] [Scalar κ ρ] [OrderKey κ] {s : Settings ρ} {sig : Signature}
  {ts : List (KeyedTerm κ)} {v : Operator κ}

/-- Whether an operator is the sum of some terms, sorted, merged and with coefficients in normal
form. -/
def Completes (s : Settings ρ) (ts : List (KeyedTerm κ)) (v : Operator κ) : Prop :=
  ∃ ns, sortedTerms s ts = .ok ns ∧ (∀ n ∈ ns, n.coeff.InNormalForm s.tolerance) ∧
    sumOfKeyed? s.tolerance ns = some v

variable [ExactRing κ]

/-- A repeated sort of a sum leads to the sum of its sorted terms. -/
theorem run_sort_of_sum {a b : Operator κ}
    (hsort : a.sortTerms s = .ok b) (hb : b.IsIncreasingSum sig)
    (hlarge : b.IsSignificant s.tolerance)
    (hset : (fixedPoint s.maxIterations (.ofRule .pre (sortTermsRule (κ := κ) s)) :
      Pass (Operator κ)).Settles (NestedSettle s) a) :
    (fixedPoint s.maxIterations (.ofRule .pre (sortTermsRule (κ := κ) s)) :
      Pass (Operator κ)).run a = .ok b := by
  have hagain : b.sortTerms s = .ok b := sortTerms_of_increasing hb hlarge
  -- the first iteration leads to the sorted sum, and all others leave it alone
  have hrun : (fixedPoint s.maxIterations (.ofRule .pre (sortTermsRule (κ := κ) s)) :
      Pass (Operator κ)).Achieves (NestedSettle s) (fun x => x = a ∨ x = b) (· = b) := by
    refine achieves_fixedPoint fun x hx _ => ⟨b, ?_, .inr rfl, fun _ => rfl⟩
    rcases hx with rfl | rfl
    · exact walk_sortTerms hsort hb.isTermSum
    · exact walk_sortTerms hagain hb.isTermSum
  obtain ⟨c, hc, rfl⟩ := hrun a (.inl rfl) hset
  exact hc

omit [ExactRing κ] in
theorem runAll_completion {a b v : Operator κ}
    (hsort : (fixedPoint s.maxIterations (.ofRule .pre (sortTermsRule (κ := κ) s)) :
      Pass (Operator κ)).run a = .ok b)
    (hb : b.IsIncreasingSum sig) (hup : b.up (normalizeCoeffRule s) = .ok v)
    (hv : v.IsIncreasingSum sig) (hform : v.CoeffsAll fun c => c.InNormalForm s.tolerance) :
    runAll (completion κ s) a = .ok v := by
  have hnormalize : (Pass.ofRule .post (normalizeCoeffRule (κ := κ) s) :
      Pass (Operator κ)).run b = .ok v := hup
  rw [completion, runAll_cons hsort, runAll_cons (run_sortedTermsCheck hb), runAll_cons hnormalize,
    runAll_cons (run_verification hv fun c hc => (hform c hc).inOrder)]
  rfl

theorem completes_sum {b : Operator κ} (hsum : b.isSum = true) (hread : b.CoeffsAll Coeff.Readable)
    (hterms : b.terms = ts.map KeyedTerm.operator) (hts : ∀ t ∈ ts, t.IsNormal sig)
    (hset : SettlesAll (NestedSettle s) (completion κ s) b) :
    ∃ v, runAll (completion κ s) b = .ok v ∧ Completes s ts v := by
  have hkeyed := mapM_keyed hts hterms
  have hne : ts ≠ [] := by
    rintro rfl
    exact operands_ne_nil _ _ hterms
  have hnested : ∀ t ∈ b.sortedBy, t.coeff.Settles s := (settles_of_fixedPoint hset.1).1 rfl
  obtain ⟨x, y, rfl⟩ := isSum_iff.mp hsum
  rw [sortedBy, hkeyed] at hnested
  obtain ⟨ns, hns, hall⟩ := exists_sortedTerms ((coeffsAll_keyed hts hterms).mp hread) hnested
  obtain ⟨v, hv, hinc, hform, hlarge⟩ := exists_sum_of_normalized hne hts hall
  have hsort := run_sort_of_sum (sortTerms_of_sum rfl hkeyed hns hv) hinc
    (fun hsum c hc => ⟨isStable_of_normal (hform c hc), hlarge hsum c hc⟩) hset.1
  have hup := up_normalizeCoeff_of_normal (s := s) fun c hc => ⟨hform c hc, BEq.rfl⟩
  refine ⟨v, runAll_completion hsort hinc hup hinc hform, ns, hns, fun n hn => ?_, hv⟩
  obtain ⟨t, -, htn⟩ := exists_of_forall₂ hall hn
  exact htn.stable.normal

omit [OrderKey κ] in
/-- A single term stays, also with the coefficient zero. -/
theorem sumOfKeyed_singleton (t : KeyedTerm κ) : sumOfKeyed? (0 : ρ) [t] = some t.operator := by
  by_cases hzero : isNegligible (0 : ρ) t.coeff = true
  · have hkept : [t].filter (fun t => !isNegligible (0 : ρ) t.coeff) = [] := by simp [hzero]
    rw [sumOfKeyed?, hkept, KeyedTerm.operator, isNegligible_iff.mp hzero]
    rfl
  · have hkept : [t].filter (fun t => !isNegligible (0 : ρ) t.coeff) = [t] := by simp [hzero]
    rw [sumOfKeyed?, hkept]
    rfl

theorem completes_term (hs : s.tolerance = 0) {t : KeyedTerm κ} (ht : t.IsNormal sig)
    (hread : t.coeff.Readable) (hset : SettlesAll (NestedSettle s) (completion κ s) t.operator) :
    ∃ v, runAll (completion κ s) t.operator = .ok v ∧ Completes s [t] v := by
  have increasing {t : KeyedTerm κ} (ht : t.IsNormal sig) : t.operator.IsIncreasingSum sig :=
    ⟨[t], rfl, List.pairwise_singleton _ _, List.forall_mem_singleton.mpr ht⟩
  have hsort : (fixedPoint s.maxIterations (.ofRule .pre (sortTermsRule (κ := κ) s)) :
      Pass (Operator κ)).run t.operator = .ok t.operator :=
    run_fixedPoint_of_fixed (walk_sortTerms (sortTerms_of_not_sum rfl) (increasing ht).isTermSum)
      BEq.rfl
  have hnested : t.coeff.Settles s :=
    ((hset.2 _ hsort).2 _ (run_sortedTermsCheck (increasing ht))).1.2 rfl _ List.mem_cons_self
  obtain ⟨n, hn, hstable, hup⟩ := up_normalizeCoeff ht hread hnested
  let u : KeyedTerm κ := { t with coeff := n }
  have hu : u.IsNormal sig := ht
  have hform : u.operator.CoeffsAll fun c => c.InNormalForm s.tolerance :=
    (coeffsAll_keyed (List.forall_mem_singleton.mpr hu) rfl).mpr
      (List.forall_mem_singleton.mpr hstable.normal)
  have hsorted : sortedTerms s [t] = .ok [u] := by
    have hone : Increasing [t] := List.pairwise_singleton _ _
    change (mergedTerms [t]).mapM _ = _
    rw [mergedTerms_of_increasing hone, mapM_eq_ok]
    exact .cons (bind_eq_ok.mpr ⟨n, hn, rfl⟩) .nil
  exact ⟨u.operator, runAll_completion hsort (increasing ht) hup (increasing hu) hform, [u],
    hsorted, List.forall_mem_singleton.mpr hstable.normal, by rw [hs, sumOfKeyed_singleton]⟩

/-- Completion leads from a sum of terms to the sum of its sorted terms. -/
theorem exists_completes (hs : s.tolerance = 0) {b : Operator κ} (hb : IsReadableTermSum sig b)
    (hset : SettlesAll (NestedSettle s) (completion κ s) b) :
    ∃ ts v, b.terms = ts.map KeyedTerm.operator ∧ (∀ t ∈ ts, t.IsNormal sig) ∧
      runAll (completion κ s) b = .ok v ∧ Completes s ts v := by
  obtain ⟨hread, hterms⟩ := hb
  rcases hterms.cases with hsum | ⟨t, ht, rfl⟩
  · obtain ⟨ts, hterms, hts⟩ := hterms
    obtain ⟨v, hv, hcompletes⟩ := completes_sum hsum hread hterms hts hset
    exact ⟨ts, v, hterms, hts, hv, hcompletes⟩
  · obtain ⟨v, hv, hcompletes⟩ := completes_term hs ht (hread _ List.mem_cons_self) hset
    exact ⟨[t], v, rfl, List.forall_mem_singleton.mpr ht, hv, hcompletes⟩

end Canonical

end SpinBoson
