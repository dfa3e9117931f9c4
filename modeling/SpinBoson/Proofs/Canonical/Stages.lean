import SpinBoson.Proofs.Operator.TermWalks

/-!
What each stage on the way to the canonical form achieves, once its repetitions end by themselves.
-/
namespace SpinBoson.Canonical

open Operator Pass

variable {κ ρ : Type} [RealScalar ρ] [Scalar κ ρ]

/-! Walks and checks as passes -/

theorem run_ofOperator (name : String) (f : Operator κ → Operator κ) (a : Operator κ) :
    (Pass.ofRule .post (Rule.ofOperator name fun a => .ok (f a) : Rule κ (Except Error)) :
      Pass (Operator κ)).run a = .ok (a.rewrite f) :=
  up_ofOperator name f a

/-- A round of two walks. -/
theorem run_round (name name₁ name₂ : String) (f g : Operator κ → Operator κ) (a : Operator κ) :
    (Pass.chain name
      [.ofRule .post (Rule.ofOperator name₁ fun a => .ok (f a) : Rule κ (Except Error)),
        .ofRule .post (Rule.ofOperator name₂ fun a => .ok (g a) : Rule κ (Except Error))] :
      Pass (Operator κ)).run a = .ok ((a.rewrite f).rewrite g) :=
  bind_eq_ok.mpr ⟨_, run_ofOperator name₁ f a,
    bind_eq_ok.mpr ⟨_, run_ofOperator name₂ g (a.rewrite f), rfl⟩⟩

section Checks

variable {nested : String → Operator κ → Prop} {P : Operator κ → Prop} {name : String}
  {violation? : Operator κ → Option Violation}

theorem run_check_post {a : Operator κ} (h : a.AllNodes fun x => violation? x = none) :
    (check κ .post (Rule.ofCheck name violation?) : Pass (Operator κ)).run a = .ok a := by
  have hc : (Rule.ofCheck name violation? : Rule κ (Except Error)).coeff = pure := rfl
  refine up_of_allNodes (fun c _ => Coeff.up_of_coeff_pure hc c) (h.imp fun x hx => ?_)
  exact Rule.verdict_eq_ok.mpr ⟨hx, rfl⟩

theorem run_check_pre [OrderKey κ] {descends : Operator κ → Bool} {a : Operator κ}
    (h : a.AllVisited descends fun x => violation? x = none) :
    (check κ .pre ((Rule.ofCheck name violation?).descending descends) :
      Pass (Operator κ)).run a = .ok a := by
  rw [check_eq, Pass.run]
  obtain ⟨n, _, hwalk⟩ :=
    exists_walk_pre ((Rule.ofCheck (κ := κ) name violation?).descending descends) a
  rw [hwalk]
  refine down_of_allVisited rfl (h.imp fun x hx => ?_) n
  exact Rule.verdict_eq_ok.mpr ⟨hx, rfl⟩

theorem achieves_of_run [BEq κ] {pass : Pass (Operator κ)} (h : ∀ a, P a → pass.run a = .ok a) :
    pass.Achieves nested P P :=
  fun a ha _ => ⟨a, h a ha, ha⟩

end Checks

variable {nested : String → Operator κ → Prop}

/-! Distributing and gathering -/

/-- Readable operators with the signatures of another one. -/
def StandsFor (a₀ a : Operator κ) : Prop :=
  a.CoeffsAll Coeff.Readable ∧ SameSignature a₀ a

theorem standsFor_rewrite {f : Operator κ → Operator κ}
    (hcoeffs : ∀ a, KeepsCoeffs Coeff.Readable a (f a)) (hsig : ∀ a, SameSignature a (f a))
    {a₀ a : Operator κ} (h : StandsFor a₀ a) : StandsFor a₀ (a.rewrite f) :=
  ⟨rewrite_related keepsCoeffs_congruence hcoeffs a h.1,
    sameSignature_congruence.trans h.2 (rewrite_related sameSignature_congruence hsig a)⟩

/-- Whether no node is left to distribute or to gather. -/
def IsFlat (a : Operator κ) : Prop :=
  (a.AllNodes fun x => x.isDistributed = true) ∧ a.AllNodes fun x => x.isGathered = true

theorem distribute_achieves (cap : Nat) (name : String) (a₀ : Operator κ) :
    (fixedPoint cap (.chain name
      [.ofRule .post (distributeRule (κ := κ)), .ofRule .post (gatherRule (κ := κ))]) :
        Pass (Operator κ)).Achieves nested (StandsFor a₀) (fun a => StandsFor a₀ a ∧ IsFlat a) := by
  refine achieves_fixedPoint fun a ha _ => ⟨_, run_round _ _ _ distribute gatherCoeffs a, ?_⟩
  have hb := standsFor_rewrite (keepsCoeffs_gatherCoeffs readable_hereditary)
    sameSignature_gatherCoeffs (standsFor_rewrite (keepsCoeffs_distribute readable_hereditary)
      sameSignature_distribute ha)
  refine ⟨hb, fun hbeq => ⟨hb, ?_⟩⟩
  obtain ⟨hd, hg⟩ := fixed_of_round distribution_strict distribute_lighter
    gatherCoeffs_le_distribution hbeq
  rw [rewrite_of_allNodes hd, rewrite_of_allNodes hg]
  exact ⟨hd.imp fun _ => isDistributed_iff.mpr, hg.imp fun _ => isGathered_iff.mpr⟩

/-! Multiplying out -/

/-- Readable distributed operators with a signature. -/
structure IsDistributedOn (s : Signature) (a : Operator κ) : Prop where
  readable : a.CoeffsAll Coeff.Readable
  distributed : a.AllNodes fun x => x.isDistributed = true
  signature : a.signature = .ok s

/-- Sums of terms with a property and readable coefficients. -/
def ReadableSum (P : Operator κ → Prop) (a : Operator κ) : Prop :=
  a.CoeffsAll Coeff.Readable ∧ a.SumOf P

/-- Chains with the qubits and modes of a signature, in any order. -/
def ChainOn (s : Signature) (a : Operator κ) : Prop :=
  a.IsChain ∧ qubitsFirst.ranks a = ↑(s.map placeRank)

theorem isDistributedOn_rewrite {f : Operator κ → Operator κ}
    (hcoeffs : ∀ a, KeepsCoeffs Coeff.Readable a (f a)) (hdist : ∀ a, KeepsDistributed a (f a))
    (hsig : ∀ a, KeepsSignature a (f a)) {s : Signature} {a : Operator κ}
    (h : IsDistributedOn s a) : IsDistributedOn s (a.rewrite f) where
  readable := rewrite_related keepsCoeffs_congruence hcoeffs a h.readable
  distributed := (rewrite_related keepsDistributed_congruence hdist a h.distributed).1
  signature := rewrite_related keepsSignature_congruence hsig a s h.signature

theorem reducePauli_achieves (cap : Nat) (name : String) (s : Signature) :
    (fixedPoint cap (.chain name
      [.ofRule .post (pauliRule (κ := κ)), .ofRule .post (gatherRule (κ := κ))]) :
        Pass (Operator κ)).Achieves nested (IsDistributedOn s) (ReadableSum (ChainOn s)) := by
  refine achieves_fixedPoint fun a ha _ => ⟨_, run_round _ _ _ reducePauli gatherCoeffs a, ?_⟩
  have hb := isDistributedOn_rewrite (keepsCoeffs_gatherCoeffs readable_hereditary)
    keepsDistributed_gatherCoeffs keepsSignature_gatherCoeffs
    (isDistributedOn_rewrite (keepsCoeffs_reducePauli readable_hereditary)
      keepsDistributed_reducePauli keepsSignature_reducePauli ha)
  refine ⟨hb, fun hbeq => ⟨hb.readable, ?_⟩⟩
  obtain ⟨hp, hg⟩ := fixed_of_round reduction_strict reducePauli_lighter
    gatherCoeffs_le_reduction hbeq
  rw [rewrite_of_allNodes hp, rewrite_of_allNodes hg]
  have hproduct := sumOf_product ha.distributed (hg.imp fun _ => isGathered_iff.mpr)
  refine ((hproduct.and_signature ha.signature).and_allNodes hp).imp ?_
  rintro x ⟨⟨hx, hsig⟩, hfixed⟩
  have hchain := isChain_of_fixed hx hsig hfixed
  exact ⟨hchain, hchain.ranks hsig⟩

/-! Qubits in front -/

theorem actsInTerms_gatherQubits : ActsInTerms (gatherQubits (κ := κ)) where
  add _ _ := rfl
  scale _ _ := rfl

theorem gatherQubits_achieves (cap : Nat) (s : Signature) :
    (fixedPoint cap (.ofRule .post (gatherQubitsRule (κ := κ))) : Pass (Operator κ)).Achieves nested
      (ReadableSum (ChainOn s)) (ReadableSum (IsArranged IsWord s)) := by
  refine achieves_fixedPoint fun a ha _ => ⟨_, run_ofOperator _ gatherQubits a, ?_⟩
  have hchain (x : Operator κ) (hx : ChainOn s x) : ChainOn s (x.rewrite gatherQubits) :=
    ⟨(rewrite_related keepsChains_congruence keepsChains_gatherQubits x).1 hx.1,
      (gatherQubits_ranks x).trans hx.2⟩
  have hread := rewrite_related keepsCoeffs_congruence keepsCoeffs_gatherQubits a ha.1
  refine ⟨⟨hread, ha.2.rewrite actsInTerms_gatherQubits hchain fun x hx => hx.1.isProduct.plain⟩,
    fun hbeq => ⟨hread, ?_⟩⟩
  have hfixed := Arrangement.fixed_of_rewrite gatherQubits_closer hbeq
  rw [rewrite_of_allNodes hfixed]
  refine (ha.2.and_allNodes hfixed).imp ?_
  rintro x ⟨hx, hfixed⟩
  exact isArranged_of_fixed hx.1 hx.2 hfixed

/-! Words in normal order -/

theorem actsInWords_normalOrder : ActsInWords (normalOrder (κ := κ)) where
  add _ _ := rfl
  scale _ _ := rfl
  spin _ := rfl
  kron _ _ := rfl

theorem actsInWords_pruneIdentity : ActsInWords (pruneIdentity (κ := κ)) where
  add _ _ := rfl
  scale _ _ := rfl
  spin _ := rfl
  kron _ _ := rfl

theorem isPlain_of_arranged {W : Operator κ → Prop} (hW : ∀ w, W w → w.IsWord) {s : Signature}
    {a : Operator κ} (h : a.IsArranged W s) : a.IsPlain :=
  (h.isChain hW).isProduct.plain

/-- Distributing and gathering leave sums of chains alone. -/
theorem rewrite_flat {W : Operator κ → Prop} (hW : ∀ w, W w → w.IsWord) {s : Signature}
    {a : Operator κ} (h : a.SumOf (IsArranged W s)) :
    a.rewrite distribute = a ∧ a.rewrite gatherCoeffs = a := by
  have hfixed := fixed_of_sumOf_product (h.imp fun _ hx => (hx.isChain hW).isProduct)
  exact ⟨rewrite_of_allNodes (hfixed.imp fun _ hx => hx.1),
    rewrite_of_allNodes (hfixed.imp fun _ hx => hx.2)⟩

theorem normalOrder_achieves (cap : Nat) (name : String) (s : Signature) :
    (fixedPoint cap (.chain name
      [.ofRule .post (normalOrderRule (κ := κ)), .ofRule .post (distributeRule (κ := κ)),
        .ofRule .post (gatherRule (κ := κ))]) : Pass (Operator κ)).Achieves nested
      (ReadableSum (IsArranged IsWord s)) (ReadableSum (IsArranged IsOrderedWord s)) := by
  refine achieves_fixedPoint fun a ha _ => ⟨a.rewrite normalOrder, ?_⟩
  have hwords : (a.rewrite normalOrder).SumOf (IsArranged IsWord s) :=
    ha.2.rewrite actsInWords_normalOrder.toActsInTerms
      (fun _ hx => hx.rewrite actsInWords_normalOrder
        (rewrite_related keepsChains_congruence keepsChains_normalOrder · |>.2))
      fun _ hx => isPlain_of_arranged (fun _ hw => hw) hx
  have hread := rewrite_related keepsCoeffs_congruence keepsCoeffs_normalOrder a ha.1
  obtain ⟨hd, hg⟩ := rewrite_flat (fun _ hw => hw) hwords
  refine ⟨?_, ⟨hread, hwords⟩, fun hbeq => ⟨hread, ?_⟩⟩
  · refine bind_eq_ok.mpr ⟨_, run_ofOperator _ normalOrder a, bind_eq_ok.mpr ⟨_,
      run_ofOperator _ distribute _, bind_eq_ok.mpr ⟨_, run_ofOperator _ gatherCoeffs _, ?_⟩⟩⟩
    rw [hd, hg]
    rfl
  · have hfixed := Arrangement.fixed_of_rewrite normalOrder_closer hbeq
    rw [rewrite_of_allNodes hfixed]
    refine (ha.2.and_allNodes hfixed).imp ?_
    rintro x ⟨hx, hfixed⟩
    refine (hx.and_allNodes hfixed).imp ?_
    rintro w ⟨hw, hfixed⟩
    exact exists_word_of_check hw (hfixed.imp fun _ => normalOrderViolation_eq_none_iff.mpr)

theorem prune_achieves (cap : Nat) (s : Signature) :
    (fixedPoint cap (.ofRule .post (pruneRule (κ := κ))) : Pass (Operator κ)).Achieves nested
      (ReadableSum (IsArranged IsOrderedWord s)) (ReadableSum (IsArranged IsNormalWord s)) := by
  refine achieves_fixedPoint fun a ha _ => ⟨_, run_ofOperator _ pruneIdentity a, ?_⟩
  have hread := rewrite_related keepsCoeffs_congruence keepsCoeffs_pruneIdentity a ha.1
  have hnormal : (a.rewrite pruneIdentity).SumOf (IsArranged IsNormalWord s) :=
    ha.2.rewrite actsInWords_pruneIdentity.toActsInTerms
      (fun _ hx => hx.rewrite actsInWords_pruneIdentity fun _ hw => hw.prune)
      fun _ hx => isPlain_of_arranged (fun _ hw => hw.isWord) hx
  exact ⟨⟨hread, hnormal.imp fun _ hx => hx.imp fun _ hw => hw.isOrderedWord⟩,
    fun _ => ⟨hread, hnormal⟩⟩

/-! Terms -/

/-- Sums of readable terms with keys in normal form. -/
def IsReadableTermSum (s : Signature) (a : Operator κ) : Prop :=
  a.CoeffsAll Coeff.Readable ∧ a.IsTermSum s

/-- Once all terms have coefficients there is nothing to gather. -/
theorem run_scaleTerms (name : String) {s : Signature} {a : Operator κ}
    (h : a.SumOf (IsArranged IsNormalWord s)) :
    (Pass.chain name [.ofRule .pre (scaleTermsRule (κ := κ)), .ofRule .post (gatherRule (κ := κ))] :
      Pass (Operator κ)).run a = .ok a.scaleTerms := by
  obtain ⟨_, hg⟩ := rewrite_flat (fun _ hw => hw.isWord) (scaleTerms_isTermSum h).sumOf
  refine bind_eq_ok.mpr ⟨_, walk_scaleTerms a, bind_eq_ok.mpr ⟨_,
    run_ofOperator _ gatherCoeffs _, ?_⟩⟩
  rw [hg]
  rfl

theorem scaleTerms_achieves (cap : Nat) (name : String) (s : Signature) :
    (fixedPoint cap (.chain name
      [.ofRule .pre (scaleTermsRule (κ := κ)), .ofRule .post (gatherRule (κ := κ))]) :
        Pass (Operator κ)).Achieves nested
      (ReadableSum (IsArranged IsNormalWord s)) (IsReadableTermSum s) := by
  refine achieves_fixedPoint fun a ha _ => ⟨a.scaleTerms, run_scaleTerms name ha.2, ?_⟩
  have hterms := scaleTerms_isTermSum ha.2
  have hread := keepsCoeffs_scaleTerms readable_hereditary a ha.1
  exact ⟨⟨hread, hterms.sumOf⟩, fun _ => ⟨hread, hterms⟩⟩

variable [OrderKey κ]

/-- Whether the normalizations of coefficients that a step runs end by themselves. -/
def NestedSettle (s : Settings ρ) (name : String) (a : Operator κ) : Prop :=
  (name = "SortedOrder" → ∀ t ∈ a.sortedBy, t.coeff.Settles s) ∧
    (name = "NormalizeCoefficients" → ∀ c ∈ a.coeffs, c.Settles s)

/-- Readable terms in the order of their keys, none of them negligible beside others. -/
structure IsSorted (s : Settings ρ) (sig : Signature) (a : Operator κ) : Prop where
  readable : a.CoeffsAll Coeff.Readable
  increasing : a.IsIncreasingSum sig
  significant : a.IsSignificant s.tolerance

/-- Increasing sums with normal forms in front that are, beside others, not negligible. -/
structure IsSettled (s : Settings ρ) (sig : Signature) (a : Operator κ) : Prop where
  increasing : a.IsIncreasingSum sig
  stable : a.CoeffsAll fun c => c.IsStable s.tolerance
  significant : a.IsSignificant s.tolerance

variable [LawfulTest κ] [LawfulOrderKey κ]

theorem sortTerms_achieves (cap : Nat) (s : Settings ρ) (sig : Signature) :
    (fixedPoint cap (.ofRule .pre (sortTermsRule (κ := κ) s)) : Pass (Operator κ)).Achieves
      (NestedSettle s) (IsReadableTermSum sig)
      (IsSorted s sig) := by
  refine achieves_fixedPoint fun a ha hset => ?_
  obtain ⟨b, hb, hterms, hread, hinc⟩ := exists_sortTerms ha.2 ha.1 (hset.1 rfl)
  refine ⟨b, walk_sortTerms hb hterms, ⟨hread, hterms⟩, fun hbeq => ?_⟩
  exact ⟨hread, (hinc hbeq).1, (hinc hbeq).2⟩

theorem normalizeCoeff_achieves (s : Settings ρ) (sig : Signature) :
    (Pass.ofRule .post (normalizeCoeffRule (κ := κ) s) : Pass (Operator κ)).Achieves (NestedSettle s)
      (IsSorted s sig) (IsSettled s sig) := by
  refine achieves_step fun a ha hset => ?_
  obtain ⟨b, hb, hinc, hstable⟩ := exists_normalizeCoeffs ha.increasing ha.readable (hset.2 rfl)
  exact ⟨b, hb, hinc, hstable, significant_of_up ha.increasing.isTermSum ha.significant hb⟩

end SpinBoson.Canonical
