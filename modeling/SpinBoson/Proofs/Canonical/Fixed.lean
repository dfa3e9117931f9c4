import SpinBoson.Proofs.Canonical.Verified

/-!
Canonical forms that equal themselves are left alone by every step, and by all of them when they are
what one round of multiplying out leads to.
-/
namespace SpinBoson

variable {κ ρ : Type} [RealScalar ρ] [Scalar κ ρ]

namespace Pass

/-- What a chain is made of. -/
def parts {α : Type} : Pass α → List (Pass α)
  | chain _ passes => passes
  | _ => []

end Pass

namespace Canonical

open Operator Pass

theorem leavesAlone_ofOperator {nested : String → Operator κ → Prop} {name : String}
    {f : Operator κ → Operator κ} {a : Operator κ} (hf : a.rewrite f = a) (hnested : nested name a) :
    (Pass.ofRule .post (Rule.ofOperator name fun a => .ok (f a) : Rule κ (Except Error)) :
      Pass (Operator κ)).LeavesAlone nested a :=
  leavesAlone_step ((run_ofOperator name f a).trans (congrArg _ hf)) hnested

theorem leavesAlone_check [OrderKey κ] {nested : String → Operator κ → Prop} {st : Strategy}
    {r : Rule κ (Except Error)} {a : Operator κ}
    (h : (check κ st r : Pass (Operator κ)).run a = .ok a) (hnested : nested r.name a) :
    (check κ st r : Pass (Operator κ)).LeavesAlone nested a := by
  rw [check_eq, run] at h
  rw [check_eq]
  exact leavesAlone_step h hnested

theorem leavesAlone_checkSignatures [OrderKey κ] {nested : String → Operator κ → Prop}
    {a : Operator κ} {sig : Signature} (h : a.signature = .ok sig)
    (hnested : nested "VerifyHilbertSpaceDim" a) :
    (checkSignatures κ : Pass (Operator κ)).LeavesAlone nested a := by
  have hrun := run_checkSignatures h
  rw [checkSignatures_eq, run] at hrun
  rw [checkSignatures_eq]
  exact leavesAlone_step hrun hnested

variable [OrderKey κ] {s : Settings ρ} {sig : Signature} {v : Operator κ}

omit [OrderKey κ] in
theorem scaleTerms_of_terms (h : v.IsTermSum sig) : v.scaleTerms = v := by
  induction v with
  | bin op x y ihx ihy =>
    cases op with
    | add =>
      obtain ⟨hx, hy⟩ := isTermSum_add.mp h
      rw [Operator.scaleTerms, ihx hx, ihy hy]
    | sub | mul | kron =>
      rcases h.cases with h | ⟨t, _, h⟩
      · cases h
      · cases h
  | spin | mode =>
    rcases h.cases with h | ⟨t, _, h⟩
    · cases h
    · cases h
  | scale c x => rfl

variable [LawfulTest κ]

theorem nestedSettle_settled (h : IsSettled s sig v) (name : String) : NestedSettle s name v := by
  have hset : v.CoeffsAll fun c => c.Settles s := fun c hc =>
    (h.stable c hc).settles
  refine ⟨fun _ => ?_, fun _ => hset⟩
  obtain ⟨ts, hts, hinc, hnormal⟩ := h.increasing
  have hterms := terms_of_sum hts
  have hsorted : ∀ t ∈ v.sortedBy, t ∈ ts := by
    unfold sortedBy
    split
    · rw [mapM_keyed hnormal hterms, Option.map_some, mergedTerms_of_increasing hinc]
      exact fun _ ht => ht
    · exact fun _ ht => absurd ht List.not_mem_nil
  exact fun t ht => (coeffsAll_keyed hnormal hterms).mp hset t (hsorted t ht)

/-- Every step leaves canonical forms alone, and no repetition hits its cap on them. -/
theorem leavesAlone_settled (h : IsSettled s sig v) :
    ∀ pass ∈ (canonicalization κ s : Pass (Operator κ)).parts,
      pass.LeavesAlone (NestedSettle s) v := by
  have hnested := nestedSettle_settled h
  have hform : v.CoeffsAll fun c => c.InNormalForm s.tolerance ∧ (c == c) = true := fun c hc =>
    ⟨(h.stable c hc).normal, Coeff.beq_self_of_finite (h.stable c hc).finite⟩
  have hself : (v == v) = true := beq_self_of_coeffs fun c hc => (hform c hc).2
  have hterms := h.increasing.isTermSum
  have harranged := hterms.sumOf
  have hwords (w : Operator κ) (hw : w.IsNormalWord) : w.IsWord := hw.isWord
  have hchains := harranged.imp fun _ hx => hx.isChain hwords
  have hflat := isFlat_of_chains hchains
  have hordered := harranged.imp fun _ hx => hx.imp fun _ hw => hw.isOrderedWord
  obtain ⟨hdistribute, hgather⟩ := rewrite_flat hwords harranged
  have hpauli : v.rewrite reducePauli = v :=
    rewrite_of_allNodes ((isPauliReduced_of_chains hchains).imp fun _ => reducePauli_of_reduced)
  have hqubits : v.rewrite gatherQubits = v :=
    rewrite_of_allNodes ((gatheredQubitsViolation_of_arranged hwords harranged).imp fun _ =>
      gatheredQubitsViolation_eq_none_iff.mp)
  have horder : v.rewrite normalOrder = v :=
    rewrite_of_allNodes ((normalOrderViolation_of_ordered hordered).imp fun _ =>
      normalOrderViolation_eq_none_iff.mp)
  have hprune : v.rewrite pruneIdentity = v :=
    rewrite_of_allNodes ((hasIdentityFactor_of_normal harranged).imp fun _ =>
      hasIdentityFactor_eq_false_iff.mp)
  have hscale : walk .pre (scaleTermsRule (κ := κ)) v = .ok v := by
    rw [walk_scaleTerms, scaleTerms_of_terms hterms]
  have hsort : walk .pre (sortTermsRule (κ := κ) s) v = .ok v :=
    walk_sortTerms (sortTerms_of_increasing h.increasing h.significant) hterms
  have once {name : String} {f : Operator κ → Operator κ} (hf : v.rewrite f = v) :=
    leavesAlone_ofOperator hf (hnested name)
  have repeated {pass : Pass (Operator κ)} (hpass : pass.LeavesAlone (NestedSettle s) v) :
      (fixedPoint s.maxIterations pass).LeavesAlone (NestedSettle s) v :=
    leavesAlone_fixedPoint hpass hself
  have checked {st : Strategy} {r : Rule κ (Except Error)}
      (hr : (check κ st r : Pass (Operator κ)).run v = .ok v) := leavesAlone_check hr (hnested _)
  have hdistributedCheck := checked (run_distributedCheck hflat)
  have hgatheredCheck := checked (run_gatheredCheck hflat)
  have hsignatures := leavesAlone_checkSignatures (signature_of_increasing h.increasing) (hnested _)
  have hpauliCheck := checked (run_pauliCheck hchains)
  have hqubitsCheck := checked (run_gatheredQubitsCheck hwords harranged)
  have horderCheck := checked (run_normalOrderCheck hordered)
  have hprunedCheck := checked (run_prunedCheck harranged)
  have hscaledCheck := checked (run_scaledTermsCheck hterms)
  have hsortedCheck := checked (run_sortedTermsCheck h.increasing)
  have hproperCheck := checked (run_properOrderCheck h.increasing fun c hc => (hform c hc).1.inOrder)
  simp only [canonicalization, parts, List.forall_mem_cons, List.not_mem_nil, false_imp_iff,
    implies_true, and_true]
  refine ⟨repeated (leavesAlone_chain ?_), hdistributedCheck, hgatheredCheck, hsignatures,
    repeated (leavesAlone_chain ?_), hpauliCheck, repeated (once hqubits), hqubitsCheck,
    repeated (leavesAlone_chain ?_), horderCheck, repeated (once hprune), hprunedCheck,
    repeated (leavesAlone_chain ?_), hscaledCheck, hgatheredCheck, repeated ?_, hsortedCheck, ?_,
    leavesAlone_chain ?_⟩
  all_goals
    try simp only [List.forall_mem_cons, List.not_mem_nil, false_imp_iff, implies_true, and_true]
  · exact ⟨once hdistribute, once hgather⟩
  · exact ⟨once hpauli, once hgather⟩
  · exact ⟨once horder, once hdistribute, once hgather⟩
  · exact ⟨leavesAlone_step hscale (hnested _), once hgather⟩
  · exact leavesAlone_step hsort (hnested _)
  · exact leavesAlone_step (up_normalizeCoeff_of_normal hform) (hnested _)
  · exact ⟨hdistributedCheck, hgatheredCheck, hsignatures, hpauliCheck, hqubitsCheck, horderCheck,
      hprunedCheck, hscaledCheck, hsortedCheck, hproperCheck⟩

end Canonical

end SpinBoson
