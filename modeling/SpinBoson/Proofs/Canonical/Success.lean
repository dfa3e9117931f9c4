import SpinBoson.Proofs.Canonical.Respect
import SpinBoson.Proofs.Canonical.Verified

/-!
Operators with a signature have a canonical form, once all repetitions end by themselves; those
without one are refused for their dimensions.
-/
namespace SpinBoson.Canonical

open Operator Pass

variable {κ ρ : Type} [RealScalar ρ] [Scalar κ ρ] [OrderKey κ]

/--
Whether every repetition on the way to the canonical form ends because nothing changes any more, also
those that normalize coefficients, which are run over finite literals.
-/
def Converges (s : Settings ρ) (a : Operator κ) : Prop :=
  (canonicalization κ s).Settles (NestedSettle s) a

variable {s : Settings ρ} {a : Operator κ} {sig : Signature}

/-- The steps on operators alone expand an operator with a signature into a sum of terms. -/
theorem expansion_achieves (nested : String → Operator κ → Prop) (s : Settings ρ)
    (hsig : a.signature = .ok sig) :
    AchievesAll nested (StandsFor a) (expansion κ s) (IsReadableTermSum sig) := by
  have hsame {x : Operator κ} (hx : StandsFor a x) : x.signature = .ok sig := (hx.2 sig).mp hsig
  refine achievesAll_cons (distribute_achieves _ _ a) ?_
  refine achievesAll_cons (achieves_of_run fun x hx => run_distributedCheck hx.2) ?_
  refine achievesAll_cons (achieves_of_run fun x hx => run_gatheredCheck hx.2) ?_
  refine achievesAll_cons (achieves_of_run fun x hx => run_checkSignatures (hsame hx.1)) ?_
  refine achievesAll_cons ((reducePauli_achieves _ _ sig).imp
    (fun x hx => ⟨hx.1.1, hx.2.1, hsame hx.1⟩) fun _ hx => hx) ?_
  refine achievesAll_cons (achieves_of_run fun x hx =>
    run_pauliCheck (hx.2.imp fun _ hx => hx.1)) ?_
  refine achievesAll_cons (gatherQubits_achieves _ sig) ?_
  refine achievesAll_cons (achieves_of_run fun x hx =>
    run_gatheredQubitsCheck (fun _ hw => hw) hx.2) ?_
  refine achievesAll_cons (normalOrder_achieves _ _ sig) ?_
  refine achievesAll_cons (achieves_of_run fun x hx => run_normalOrderCheck hx.2) ?_
  refine achievesAll_cons (prune_achieves _ sig) ?_
  refine achievesAll_cons (achieves_of_run fun x hx => run_prunedCheck hx.2) ?_
  refine achievesAll_cons (scaleTerms_achieves _ _ sig) ?_
  refine achievesAll_cons (achieves_of_run fun x hx => run_scaledTermsCheck hx.2) ?_
  refine achievesAll_cons (achieves_of_run fun x hx => run_gatheredCheck
    (isFlat_of_chains (hx.2.sumOf.imp fun _ hx => hx.isChain fun _ hw => hw.isWord))) ?_
  exact achievesAll_nil fun _ hx => hx

/-- What is left once an operator has been expanded. -/
theorem exists_expanded (hread : ∀ c ∈ a.coeffs, c.Readable) (hsig : a.signature = .ok sig)
    (hconv : Converges s a) :
    ∃ b, runAll (expansion κ s) a = .ok b ∧ IsReadableTermSum sig b ∧
      SettlesAll (NestedSettle s) (completion κ s) b := by
  have hsettles : SettlesAll (NestedSettle s) (expansion κ s ++ completion κ s) a := hconv
  obtain ⟨hexpansion, hcompletion⟩ := settlesAll_append.mp hsettles
  obtain ⟨b, hb, hterms⟩ :=
    expansion_achieves _ s hsig a ⟨hread, sameSignature_congruence.refl a⟩ hexpansion
  exact ⟨b, hb, hterms, hcompletion b hb⟩

variable [LawfulTest κ] [LawfulOrderKey κ]

/-- The steps that act on coefficients lead from sums of terms to canonical forms. -/
theorem completion_achieves (s : Settings ρ) (sig : Signature) :
    AchievesAll (NestedSettle s) (IsReadableTermSum sig) (completion κ s) (IsSettled s sig) := by
  refine achievesAll_cons (sortTerms_achieves _ s sig) ?_
  refine achievesAll_cons (achieves_of_run fun x hx => run_sortedTermsCheck hx.increasing) ?_
  refine achievesAll_cons (normalizeCoeff_achieves s sig) ?_
  refine achievesAll_cons (achieves_of_run fun x hx =>
    run_verification hx.increasing fun c hc => (hx.stable c hc).normal.inOrder) ?_
  exact achievesAll_nil fun _ hx => hx

/-- Operators with a signature have a canonical form. -/
theorem exists_canonical (hread : ∀ c ∈ a.coeffs, c.Readable) (hsig : a.signature = .ok sig)
    (hconv : Converges s a) : ∃ v, canonicalize κ s a = .ok v ∧ IsSettled s sig v := by
  obtain ⟨b, hb, hterms, hset⟩ := exists_expanded hread hsig hconv
  obtain ⟨v, hv, hsettled⟩ := completion_achieves s sig b hterms hset
  exact ⟨v, runAll_append.mpr ⟨b, hb, hv⟩, hsettled⟩

omit [LawfulTest κ] [LawfulOrderKey κ] in
/-- Operators without a signature are refused for the dimensions of some operands. -/
theorem exists_mismatch {e : Error} (hread : ∀ c ∈ a.coeffs, c.Readable)
    (hsig : a.signature = .error e) (hconv : Converges s a) :
    ∃ l r, canonicalize κ s a = .error (.dimensionMismatch l r) := by
  have hstart : StandsFor a a := ⟨hread, sameSignature_congruence.refl a⟩
  unfold Converges canonicalization at hconv
  obtain ⟨b, hb, hstands, hflat⟩ := distribute_achieves _ _ a a hstart hconv.1
  have hrun := checkSignatures_run b
  cases hbsig : b.signature with
  | ok t => cases hsig.symm.trans ((hstands.2 t).mpr hbsig)
  | error e' =>
    rw [hbsig] at hrun
    obtain ⟨l, r, hrun⟩ := hrun
    refine ⟨l, r, ?_⟩
    rw [canonicalize, canonicalization, run, runAll_cons hb,
      runAll_cons (run_distributedCheck hflat), runAll_cons (run_gatheredCheck hflat),
      runAll_cons_error hrun]

end SpinBoson.Canonical
