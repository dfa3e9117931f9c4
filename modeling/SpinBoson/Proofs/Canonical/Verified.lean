import SpinBoson.Proofs.Canonical.Stages

/-! The checks between the stages and at the end find nothing in what the stages leave. -/
namespace SpinBoson.Canonical

open Operator Pass

variable {κ ρ : Type} [RealScalar ρ] [Scalar κ ρ] {a : Operator κ}

omit [RealScalar ρ] [Scalar κ ρ] in
/-- A property of sums and scaled operators and of all nodes of the terms holds at all nodes. -/
theorem allNodes_of_sumOf {V : Operator κ → Prop} (hadd : ∀ a b, V (add a b))
    {P : Operator κ → Prop} (hscale : ∀ c a, P a → V (scale c a)) (hP : ∀ a, P a → a.AllNodes V)
    (h : a.SumOf P) : a.AllNodes V := by
  induction a with
  | spin | mode => exact hP _ h
  | scale c a => exact ⟨hscale c a h, hP a h⟩
  | bin op a b iha ihb =>
    cases op with
    | add => exact ⟨hadd a b, iha h.1, ihb h.2⟩
    | sub | mul | kron => exact hP _ h

/-! One check each -/

theorem isFlat_of_product (h : a.IsProduct) : IsFlat a := by
  induction h with
  | pauli | mode => exact ⟨rfl, rfl⟩
  | mul ha hb iha ihb | kron ha hb iha ihb =>
    refine ⟨⟨?_, iha.1, ihb.1⟩, ?_, iha.2, ihb.2⟩
    · simp [isDistributed, ha.plain.1, hb.plain.1]
    · simp [isGathered, ha.plain.2, hb.plain.2]

theorem isFlat_of_chains (h : a.SumOf IsChain) : IsFlat a := by
  constructor
  · refine allNodes_of_sumOf (fun _ _ => rfl) (fun _ x hx => ?_)
      (fun _ hx => (isFlat_of_product (IsChain.isProduct hx)).1) h
    simp [isDistributed, (IsChain.isProduct hx).plain.1]
  · refine allNodes_of_sumOf (fun _ _ => rfl) (fun _ x hx => ?_)
      (fun _ hx => (isFlat_of_product (IsChain.isProduct hx)).2) h
    simp [isGathered, (IsChain.isProduct hx).plain.2]

theorem run_distributedCheck (h : IsFlat a) :
    (check κ .post distributedCheck : Pass (Operator κ)).run a = .ok a :=
  run_check_post (h.1.imp fun _ hx => if_pos hx)

theorem run_gatheredCheck (h : IsFlat a) :
    (check κ .post gatheredCheck : Pass (Operator κ)).run a = .ok a :=
  run_check_post (h.2.imp fun _ hx => if_pos hx)

theorem isPauliReduced_of_chains (h : a.SumOf IsChain) :
    a.AllNodes fun x => x.isPauliReduced = true :=
  allNodes_of_sumOf (fun _ _ => rfl) (fun _ _ _ => rfl) (fun _ hx => IsChain.isPauliReduced hx) h

theorem run_pauliCheck (h : a.SumOf IsChain) :
    (check κ .post pauliCheck : Pass (Operator κ)).run a = .ok a :=
  run_check_post ((isPauliReduced_of_chains h).imp fun _ hx => if_pos hx)

theorem gatheredQubitsViolation_of_word (h : a.IsWord) :
    a.AllNodes fun x => x.gatheredQubitsViolation? = none := by
  induction h with
  | mode => rfl
  | mul _ _ iha ihb => exact ⟨rfl, iha, ihb⟩

theorem gatheredQubitsViolation_of_arranged {W : Operator κ → Prop} (hW : ∀ w, W w → w.IsWord)
    {s : Signature} (h : a.SumOf (IsArranged W s)) :
    a.AllNodes fun x => x.gatheredQubitsViolation? = none := by
  refine allNodes_of_sumOf (fun _ _ => rfl) (fun _ _ _ => rfl) ?_ h
  intro x hx
  refine hx.allNodes (fun w hw => ⟨hW w hw, gatheredQubitsViolation_of_word (hW w hw)⟩)
    (fun _ => rfl) fun y b _ hb hpair => ?_
  exact gatheredQubitsViolation_eq_none_iff.mpr (gatherQubits_eq_iff.mpr ⟨hb.plain.1, hpair⟩)

theorem run_gatheredQubitsCheck {W : Operator κ → Prop} (hW : ∀ w, W w → w.IsWord) {s : Signature}
    (h : a.SumOf (IsArranged W s)) :
    (check κ .post gatheredQubitsCheck : Pass (Operator κ)).run a = .ok a :=
  run_check_post (gatheredQubitsViolation_of_arranged hW h)

theorem normalOrderViolation_of_ordered {s : Signature} (h : a.SumOf (IsArranged IsOrderedWord s)) :
    a.AllNodes fun x => x.normalOrderViolation? = none := by
  refine allNodes_of_sumOf (fun _ _ => rfl) (fun _ _ _ => rfl) ?_ h
  intro x hx
  exact hx.allNodes (fun w hw => ⟨hw.isWord, hw.inNormalOrder⟩) (fun _ => rfl) fun _ _ _ _ _ => rfl

theorem run_normalOrderCheck {s : Signature} (h : a.SumOf (IsArranged IsOrderedWord s)) :
    (check κ .post normalOrderCheck : Pass (Operator κ)).run a = .ok a :=
  run_check_post (normalOrderViolation_of_ordered h)

omit [RealScalar ρ] [Scalar κ ρ] in
theorem hasIdentityFactor_of_normal {s : Signature} (h : a.SumOf (IsArranged IsNormalWord s)) :
    a.AllNodes fun x => x.hasIdentityFactor = false := by
  refine allNodes_of_sumOf (fun _ _ => rfl) (fun _ _ _ => rfl) (fun x hx => ?_) h
  exact hx.allNodes (fun w hw => ⟨hw.isWord, hw.isPruned⟩) (fun _ => rfl) fun _ _ _ _ _ => rfl

theorem run_prunedCheck {s : Signature} (h : a.SumOf (IsArranged IsNormalWord s)) :
    (check κ .post prunedCheck : Pass (Operator κ)).run a = .ok a := by
  refine run_check_post ((hasIdentityFactor_of_normal h).imp fun x hx => ?_)
  rw [hx]
  rfl

variable [OrderKey κ]

omit [OrderKey κ] in
theorem run_checkSignatures {s : Signature} (h : a.signature = .ok s) :
    (checkSignatures κ : Pass (Operator κ)).run a = .ok a := by
  have hrun := checkSignatures_run a
  rwa [h] at hrun

theorem run_scaledTermsCheck {s : Signature} (h : a.IsTermSum s) :
    (check κ .pre scaledTermsCheck : Pass (Operator κ)).run a = .ok a :=
  run_check_pre (h.isScaled.imp fun _ hx => if_pos hx)

theorem run_sortedTermsCheck {s : Signature} (h : a.IsIncreasingSum s) :
    (check κ .pre sortedTermsCheck : Pass (Operator κ)).run a = .ok a :=
  run_check_pre h.isSorted

/-! The order of coefficients -/

theorem coeffOrderViolation_of_inOrder {e : Coeff κ} (h : e.InOrder) :
    coeffOrderViolation? e = none := by
  have sorted {op : Coeff.Op} {x y : Coeff κ} (h : (Coeff.bin op x y).InOrder) (hop : op.IsChain) :
      keysAscend (((Coeff.bin op x y).operands op).map Coeff.orderKey) = true :=
    Coeff.keysAscend_iff.mpr (List.pairwise_map.mpr (h hop).2)
  unfold coeffOrderViolation?
  dsimp only
  split
  · exact absurd rfl ((h (.inl rfl)).1 _ _)
  · exact absurd rfl ((h (.inr rfl)).1 _ _)
  · exact if_pos (sorted h (.inl rfl))
  · exact if_pos (sorted h (.inr rfl))
  · rfl

theorem up_of_inOrder {e : Coeff κ} (h : e.AllNodes Coeff.InOrder) :
    e.up (properOrderCheck (κ := κ)) = .ok e := by
  have hrule {x : Coeff κ} (hx : x.InOrder) : (properOrderCheck (κ := κ)).coeff x = .ok x :=
    Rule.verdict_eq_ok.mpr ⟨coeffOrderViolation_of_inOrder hx, rfl⟩
  induction e with
  | lit | var | raw => exact hrule h
  | neg e ih | app f e ih =>
    simp only [Coeff.up, ih h.2, ok_bind]
    exact hrule h.1
  | bin op x y ihx ihy =>
    simp only [Coeff.up, ihx h.2.1, ihy h.2.2, ok_bind]
    exact hrule h.1

omit [OrderKey κ] in
theorem nestingViolation_of_arranged {s : Signature} (h : a.IsArranged IsNormalWord s) :
    a.AllNodes fun x => x.nestingViolation? = none := by
  refine h.allNodes (fun w hw => ⟨hw.isWord, hw.isOrderedWord.leftNested⟩) (fun _ => rfl)
    fun y b _ hb _ => ?_
  have hkron := hb.plain.1
  unfold nestingViolation?
  split
  · rename_i heq
    cases heq
  · rename_i heq
    cases heq
  · rename_i heq
    cases heq
    cases hkron
  · rfl

omit [OrderKey κ] in
theorem nestingViolation_of_increasing {s : Signature} (h : a.IsIncreasingSum s) :
    a.AllNodes fun x => x.nestingViolation? = none := by
  obtain ⟨ts, hsum, hinc, hts⟩ := h
  clear hinc
  induction ts using List.reverseRecOn generalizing a with
  | nil => cases hsum
  | append_singleton ts t ih =>
    rw [List.forall_mem_append, List.forall_mem_singleton] at hts
    have ht : t.operator.AllNodes fun x => x.nestingViolation? = none :=
      ⟨rfl, nestingViolation_of_arranged hts.2.arranged⟩
    rw [List.map_append, List.map_singleton] at hsum
    rcases leftNested?_append_eq_some.mp hsum with ⟨-, rfl⟩ | ⟨x, hx, rfl⟩
    · exact ht
    · exact ⟨rfl, ih hx hts.1, ht⟩

theorem run_properOrderCheck {s : Signature} (h : a.IsIncreasingSum s)
    (hcoeffs : ∀ c ∈ a.coeffs, c.AllNodes Coeff.InOrder) :
    (check κ .post properOrderCheck : Pass (Operator κ)).run a = .ok a := by
  rw [check_eq, Pass.run]
  refine up_of_allNodes (fun c hc => up_of_inOrder (hcoeffs c hc)) ?_
  exact (nestingViolation_of_increasing h).imp fun _ hx => Rule.verdict_eq_ok.mpr ⟨hx, rfl⟩

/-! The whole form -/

/--
Left-nested sums of scaled chains with increasing keys. Each chain is the left-nested one that its
key stands for: Pauli operators for the qubits of the signature and then normal words for its modes.
-/
def IsCanonical (tolerance : ρ) (s : Signature) (v : Operator κ) : Prop :=
  ∃ ts : List (KeyedTerm κ), sum? (ts.map KeyedTerm.operator) = some v ∧ Increasing ts ∧
    ∀ t ∈ ts, t.IsNormal s ∧ t.coeff.InNormalForm tolerance

theorem isCanonical_iff {tolerance : ρ} {s : Signature} {v : Operator κ} :
    IsCanonical tolerance s v ↔
      (v.CoeffsAll fun c => c.InNormalForm tolerance) ∧ v.IsIncreasingSum s := by
  constructor
  · rintro ⟨ts, hsum, hinc, hts⟩
    have hnormal := fun t ht => (hts t ht).1
    exact ⟨(coeffsAll_keyed hnormal (terms_of_sum hsum)).mpr fun t ht => (hts t ht).2,
      ts, hsum, hinc, hnormal⟩
  · rintro ⟨hcoeffs, ts, hsum, hinc, hts⟩
    have hform := (coeffsAll_keyed hts (terms_of_sum hsum)).mp hcoeffs
    exact ⟨ts, hsum, hinc, fun t ht => ⟨hts t ht, hform t ht⟩⟩

omit [OrderKey κ] in
theorem signature_of_increasing {s : Signature} {v : Operator κ} (h : v.IsIncreasingSum s) :
    v.signature = .ok (qubitsThenModes s) := by
  refine SumOf.signature (h.isTermSum.sumOf.imp fun x hx => ?_)
  exact hx.signature fun w hw => hw.isWord.signature

/-- The last check accepts increasing sums with ordered coefficients. -/
theorem run_verification {s : Signature} {v : Operator κ} (h : v.IsIncreasingSum s)
    (hcoeffs : ∀ c ∈ v.coeffs, c.AllNodes Coeff.InOrder) :
    (verification κ : Pass (Operator κ)).run v = .ok v := by
  have harranged := h.isTermSum.sumOf
  have hchains := harranged.imp fun _ hx => hx.isChain fun _ hw => hw.isWord
  have hflat := isFlat_of_chains hchains
  rw [verification, run, runAll_cons (run_distributedCheck hflat),
    runAll_cons (run_gatheredCheck hflat),
    runAll_cons (run_checkSignatures (signature_of_increasing h)),
    runAll_cons (run_pauliCheck hchains),
    runAll_cons (run_gatheredQubitsCheck (fun _ hw => hw.isWord) harranged),
    runAll_cons (run_normalOrderCheck
      (harranged.imp fun _ hx => hx.imp fun _ hw => hw.isOrderedWord)),
    runAll_cons (run_prunedCheck harranged), runAll_cons (run_scaledTermsCheck h.isTermSum),
    runAll_cons (run_sortedTermsCheck h), runAll_cons (run_properOrderCheck h hcoeffs), runAll]

end SpinBoson.Canonical
