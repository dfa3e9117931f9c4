import SpinBoson.Proofs.Canonical.Fixed
import SpinBoson.Proofs.Canonical.Rest
import SpinBoson.Proofs.Canonical.Success
import SpinBoson.Proofs.Coeff.Rest

/-!
Over exact scalars the way to the canonical form converges on every operator with a signature and
readable coefficients, with every cap that is large enough.
-/
namespace SpinBoson

open Filter

namespace Pass

variable {α : Type} [BEq α] {nested : Nat → String → α → Prop} {P Q R : α → Prop}

/--
Whether passes with growing caps lead, from every value with one property, to a value with another
one.
-/
def LeadsFrom (nested : Nat → String → α → Prop) (P : α → Prop) (pass : Nat → Pass α)
    (Q : α → Prop) : Prop :=
  ∀ a, P a → ∃ b, LeadsTo nested pass a b ∧ Q b

/-- The same for passes that run one after the other. -/
def LeadAllFrom (nested : Nat → String → α → Prop) (P : α → Prop) (passes : Nat → List (Pass α))
    (Q : α → Prop) : Prop :=
  ∀ a, P a → ∃ b, LeadToAll nested passes a b ∧ Q b

theorem leadAllFrom_nil : LeadAllFrom nested P (fun _ => []) P :=
  fun a ha => ⟨a, leadToAll_nil, ha⟩

theorem leadAllFrom_cons {pass : Nat → Pass α} {rest : Nat → List (Pass α)}
    (hpass : LeadsFrom nested P pass Q) (hrest : LeadAllFrom nested Q rest R) :
    LeadAllFrom nested P (fun cap => pass cap :: rest cap) R := by
  intro a ha
  obtain ⟨b, hb, hQ⟩ := hpass a ha
  obtain ⟨c, hc, hR⟩ := hrest b hQ
  exact ⟨c, leadToAll_cons hb hc, hR⟩

/-- A pass that leads somewhere leads to what it achieves. -/
theorem leadsFrom_of_achieves {pass : Nat → Pass α}
    (hlead : ∀ a, P a → ∃ b, LeadsTo nested pass a b)
    (hpass : ∀ cap, (pass cap).Achieves (nested cap) P Q) : LeadsFrom nested P pass Q := by
  intro a ha
  obtain ⟨b, hb⟩ := hlead a ha
  refine ⟨b, hb, ?_⟩
  obtain ⟨cap, hrun, hset⟩ := hb.exists
  obtain ⟨c, hc, hQ⟩ := hpass cap a ha hset
  exact Except.ok.inj (hrun.symm.trans hc) ▸ hQ

theorem leadsFrom_of_leavesAlone {pass : Pass α}
    (h : ∀ a, P a → ∀ cap, pass.LeavesAlone (nested cap) a) :
    LeadsFrom nested P (fun _ => pass) P :=
  fun a ha => ⟨a, Eventually.of_forall (h a ha), ha⟩

/-- Repeating a pass that lowers a measure wherever it changes something leads somewhere. -/
theorem exists_leadsTo_of_measure [LawfulBEq α] {γ : Type} [Preorder γ] [WellFoundedLT γ]
    (μ : α → γ) {pass : Pass α} {f : α → α} (hrun : ∀ a, pass.run a = .ok (f a))
    (hset : ∀ cap a, pass.Settles (nested cap) a) (hf : ∀ a, f a = a ∨ μ (f a) < μ a) (a : α) :
    ∃ b, LeadsTo nested (fun cap => fixedPoint cap pass) a b := by
  obtain ⟨b, hb, -⟩ := exists_leadsTo_fixedPoint (P := fun _ => True)
    (InvImage.wf μ wellFounded_lt)
    (fun x _ => ⟨f x, Eventually.of_forall fun cap => ⟨hrun x, hset cap x⟩, trivial, hf x⟩) trivial
  exact ⟨b, hb⟩

end Pass

namespace Canonical

open Operator Pass

variable {κ ρ : Type} [RealScalar ρ] [Scalar κ ρ] [OrderKey κ] {s : Settings ρ}

variable (s) in
/-- What is asked of steps that run passes of their own, with a growing cap. -/
abbrev nestedAt : Nat → String → Operator κ → Prop :=
  fun cap => NestedSettle (s.capped cap)

/-- Whether a step of this name runs no passes of its own. -/
def isPlainStep (name : String) : Bool :=
  name != "SortedOrder" && name != "NormalizeCoefficients"

theorem nestedSettle_of_plain {name : String} (a : Operator κ) (h : isPlainStep name = true) :
    NestedSettle s name a := by
  simp only [isPlainStep, Bool.and_eq_true, bne_iff_ne] at h
  exact ⟨fun heq => absurd heq h.1, fun heq => absurd heq h.2⟩

theorem settles_walk {st : Strategy} {r : Rule κ (Except Error)} (h : isPlainStep r.name = true)
    (cap : Nat) (a : Operator κ) : (Pass.ofRule st r).Settles (nestedAt s cap) a :=
  nestedSettle_of_plain a h

/-- Walks whose rules run no passes of their own settle. -/
theorem settles_walks {name : String} (walks : List (Strategy × Rule κ (Except Error)))
    (h : (walks.all fun w => isPlainStep w.2.name) = true) (cap : Nat) (a : Operator κ) :
    (Pass.chain name (walks.map fun w => .ofRule w.1 w.2)).Settles (nestedAt s cap) a := by
  rw [List.all_eq_true] at h
  rw [Settles]
  induction walks generalizing a with
  | nil => trivial
  | cons w walks ih =>
    rw [List.forall_mem_cons] at h
    exact ⟨nestedSettle_of_plain a h.1, fun b _ => ih h.2 b⟩

/-- Checks that accept all operators with a property. -/
theorem leadsFrom_check {P : Operator κ → Prop} {st : Strategy} {r : Rule κ (Except Error)}
    (hname : isPlainStep r.name = true)
    (h : ∀ a, P a → (check κ st r : Pass (Operator κ)).run a = .ok a) :
    LeadsFrom (nestedAt s) P (fun _ => check κ st r) P :=
  leadsFrom_of_leavesAlone fun a ha _ => leavesAlone_check (h a ha) (nestedSettle_of_plain a hname)

variable [ExactRing κ]

/-! Distributing, multiplying out, arranging and leaving out -/

theorem exists_leadsTo_distribute (a : Operator κ) :
    ∃ b, LeadsTo (nestedAt s) (fun cap => fixedPoint cap (.chain "distribute"
      [.ofRule .post (distributeRule (κ := κ)), .ofRule .post (gatherRule (κ := κ))])) a b :=
  exists_leadsTo_of_measure (roundMeasure distribution) (run_round _ _ _ distribute gatherCoeffs)
    (settles_walks [(.post, distributeRule), (.post, gatherRule)] rfl)
    (round_lower distribution_strict distribute_lighter gatherCoeffs_le_distribution) a

theorem exists_leadsTo_reducePauli (a : Operator κ) :
    ∃ b, LeadsTo (nestedAt s) (fun cap => fixedPoint cap (.chain "pauli algebra"
      [.ofRule .post (pauliRule (κ := κ)), .ofRule .post (gatherRule (κ := κ))])) a b :=
  exists_leadsTo_of_measure (roundMeasure reduction) (run_round _ _ _ reducePauli gatherCoeffs)
    (settles_walks [(.post, pauliRule), (.post, gatherRule)] rfl)
    (round_lower reduction_strict reducePauli_lighter gatherCoeffs_le_reduction) a

theorem exists_leadsTo_gatherQubits (a : Operator κ) :
    ∃ b, LeadsTo (nestedAt s)
      (fun cap => fixedPoint cap (.ofRule .post (gatherQubitsRule (κ := κ)))) a b :=
  exists_leadsTo_of_measure qubitsFirst.disorder (run_ofOperator _ gatherQubits) (settles_walk rfl)
    gatherQubits_lower a

theorem exists_leadsTo_normalOrder (a : Operator κ) :
    ∃ b, LeadsTo (nestedAt s) (fun cap => fixedPoint cap (.chain "normal order"
      [.ofRule .post (normalOrderRule (κ := κ)), .ofRule .post (distributeRule (κ := κ)),
        .ofRule .post (gatherRule (κ := κ))])) a b :=
  exists_leadsTo_of_measure orderingMeasure run_ordering
    (settles_walks [(.post, normalOrderRule), (.post, distributeRule), (.post, gatherRule)] rfl)
    ordering_lower a

theorem exists_leadsTo_prune (a : Operator κ) :
    ∃ b, LeadsTo (nestedAt s)
      (fun cap => fixedPoint cap (.ofRule .post (pruneRule (κ := κ)))) a b :=
  exists_leadsTo_of_measure gathering.weigh (run_ofOperator _ pruneIdentity) (settles_walk rfl)
    prune_lower a

/-! Coefficients for all terms -/

variable {sig : Signature}

open Classical in
theorem exists_leadsTo_scale {a : Operator κ} (h : ReadableSum (IsArranged IsNormalWord sig) a) :
    ∃ b, LeadsTo (nestedAt s) (fun cap => fixedPoint cap (.chain "scale terms"
      [.ofRule .pre (scaleTermsRule (κ := κ)), .ofRule .post (gatherRule (κ := κ))])) a b := by
  have hwf : WellFounded (InvImage (· < ·)
      fun x : Operator κ => if x.IsTermSum sig then 0 else 1) := InvImage.wf _ Nat.lt_wfRel.wf
  have hround (x : Operator κ) (hx : ReadableSum (IsArranged IsNormalWord sig) x) :
      LeadsTo (nestedAt s) (fun _ => .chain "scale terms" [.ofRule .pre (scaleTermsRule (κ := κ)),
        .ofRule .post (gatherRule (κ := κ))]) x x.scaleTerms :=
    Eventually.of_forall fun cap => ⟨run_scaleTerms _ hx.2,
      settles_walks [(.pre, scaleTermsRule), (.post, gatherRule)] rfl cap x⟩
  obtain ⟨b, hb, -⟩ := exists_leadsTo_fixedPoint hwf (fun x hx => by
    have hterms := scaleTerms_isTermSum hx.2
    refine ⟨x.scaleTerms, hround x hx,
      ⟨keepsCoeffs_scaleTerms readable_hereditary x hx.1, hterms.sumOf⟩, ?_⟩
    by_cases hx' : x.IsTermSum sig
    · exact .inl (scaleTerms_of_terms hx')
    · exact .inr (by simp [InvImage, hx', hterms])) h
  exact ⟨b, hb⟩

/-! Sorting -/

theorem isStable_of_normal {tolerance : ρ} {c : Coeff κ} (h : c.InNormalForm tolerance) :
    c.IsStable tolerance :=
  ⟨h, Coeff.finiteLiterals_of_exact c⟩

/-- With every cap that is large enough terms have the same normalized terms. -/
theorem exists_normalized_terms (s : Settings ρ) {ts : List (KeyedTerm κ)}
    (h : ∀ t ∈ ts, t.coeff.Readable) :
    ∃ ns : List (KeyedTerm κ), ∀ᶠ cap in atTop,
      ts.mapM (fun t => return { t with coeff := ← t.coeff.normalize (s.capped cap) }) =
          (.ok ns : Except Error _) ∧ ∀ t ∈ ts, t.coeff.Settles (s.capped cap) := by
  induction ts with
  | nil => exact ⟨[], Eventually.of_forall fun _ => ⟨rfl, by simp⟩⟩
  | cons t ts ih =>
    rw [List.forall_mem_cons] at h
    obtain ⟨n, -, hn⟩ := Coeff.exists_normal s h.1
    obtain ⟨ns, hns⟩ := ih h.2
    refine ⟨{ t with coeff := n } :: ns, ?_⟩
    filter_upwards [hn, hns] with cap hn hns
    refine ⟨mapM_eq_ok.mpr (.cons ?_ (mapM_eq_ok.mp hns.1)), List.forall_mem_cons.mpr ⟨hn.2, hns.2⟩⟩
    exact bind_eq_ok.mpr ⟨n, hn.1, rfl⟩

/-- Whether sorting has nothing left to do. -/
def IsOrdered (s : Settings ρ) (sig : Signature) (a : Operator κ) : Prop :=
  a.IsIncreasingSum sig ∧ a.IsSignificant s.tolerance

/-- Sorting a sum leads to the sum of its sorted terms. -/
theorem sortTerms_of_sum {a b : Operator κ} (hsum : a.isSum = true) {ts ns : List (KeyedTerm κ)}
    (hts : a.terms.mapM keyed? = some ts) (hns : sortedTerms s ts = .ok ns)
    (hb : sumOfKeyed? s.tolerance ns = some b) : a.sortTerms s = .ok b := by
  obtain ⟨x, y, rfl⟩ := isSum_iff.mp hsum
  simp only [sortTerms, hts, hns, ok_bind, hb, Option.getD_some]
  split
  · rename_i heq
    rw [eq_of_beq heq]
    rfl
  · rfl

/-- With every cap that is large enough a sort leads to the same ordered sum. -/
theorem exists_sort {a : Operator κ} (h : IsReadableTermSum sig a) :
    ∃ b, (∀ᶠ cap in atTop, a.sortTerms (s.capped cap) = .ok b ∧
        ∀ t ∈ a.sortedBy, t.coeff.Settles (s.capped cap)) ∧
      b.CoeffsAll Coeff.Readable ∧ IsOrdered s sig b := by
  obtain ⟨hread, hterms⟩ := h
  rcases hterms.cases with hsum | ⟨t, ht, rfl⟩
  · obtain ⟨x, y, rfl⟩ := isSum_iff.mp hsum
    obtain ⟨ts, hts, hnormal⟩ := hterms
    have hkeyed := mapM_keyed hnormal hts
    have hne : ts ≠ [] := by
      rintro rfl
      exact operands_ne_nil _ _ hts
    have hcoeffs := (coeffsAll_keyed hnormal hts).mp hread
    have hmerged : ∀ t ∈ mergedTerms ts, t.coeff.Readable :=
      mergedTerms_forall (fun _ _ ht hu => readable_hereditary.bin ht hu) hcoeffs
    obtain ⟨ns, hns⟩ := exists_normalized_terms s hmerged
    obtain ⟨cap, hcap, hset⟩ := hns.exists
    obtain ⟨ns', hns', hall⟩ := exists_sortedTerms (s := s.capped cap) hcoeffs hset
    obtain rfl : ns = ns' := Except.ok.inj (hcap.symm.trans hns')
    obtain ⟨b, hb, hinc, hform, hlarge⟩ := exists_sum_of_normalized hne hnormal hall
    refine ⟨b, ?_, fun c hc => (hform c hc).textFree.readable, hinc, fun hsum c hc =>
      ⟨isStable_of_normal (hform c hc), hlarge hsum c hc⟩⟩
    filter_upwards [hns] with cap hns
    have hsorted : sortedTerms (s.capped cap) ts = .ok ns := hns.1
    refine ⟨sortTerms_of_sum rfl hkeyed hsorted hb, ?_⟩
    rw [sortedBy, hkeyed]
    exact hns.2
  · refine ⟨t.operator, Eventually.of_forall fun _ => ⟨rfl, by simp [KeyedTerm.operator, sortedBy]⟩,
      hread, ⟨[t], rfl, List.pairwise_singleton _ _, List.forall_mem_singleton.mpr ht⟩, ?_⟩
    intro h
    cases h

omit [ExactRing κ] in
theorem leadsTo_sortTerms {a b : Operator κ}
    (h : ∀ᶠ cap in atTop, a.sortTerms (s.capped cap) = .ok b ∧
      ∀ t ∈ a.sortedBy, t.coeff.Settles (s.capped cap)) (hb : b.IsTermSum sig) :
    LeadsTo (nestedAt s) (fun cap => .ofRule .pre (sortTermsRule (κ := κ) (s.capped cap))) a b := by
  filter_upwards [h] with cap h
  refine ⟨walk_sortTerms h.1 hb, fun _ => h.2, fun hname => absurd hname ?_⟩
  simp [sortTermsRule, Rule.descending, Rule.ofOperator, Rule.idle]

open Classical in
theorem exists_leadsTo_sort {a : Operator κ} (h : IsReadableTermSum sig a) :
    ∃ b, LeadsTo (nestedAt s)
      (fun cap => fixedPoint cap (.ofRule .pre (sortTermsRule (κ := κ) (s.capped cap)))) a b := by
  have hwf : WellFounded (InvImage (· < ·)
      fun x : Operator κ => if IsOrdered s sig x then 0 else 1) := InvImage.wf _ Nat.lt_wfRel.wf
  obtain ⟨b, hb, -⟩ := exists_leadsTo_fixedPoint (P := IsReadableTermSum sig) hwf (fun x hx => by
    obtain ⟨y, hy, hread, hordered⟩ := exists_sort (s := s) hx
    refine ⟨y, leadsTo_sortTerms hy hordered.1.isTermSum, ⟨hread, hordered.1.isTermSum⟩, ?_⟩
    by_cases hx' : IsOrdered s sig x
    · -- an ordered sum is left alone
      obtain ⟨cap, hcap, -⟩ := hy.exists
      have hsame : x.sortTerms (s.capped cap) = .ok x :=
        sortTerms_of_increasing hx'.1 hx'.2
      exact .inl (Except.ok.inj (hcap.symm.trans hsame))
    · exact .inr (by simp [InvImage, hx', hordered])) h
  exact ⟨b, hb⟩

/-! Normalizing -/

/-- With every cap that is large enough the walk leads to the same operator. -/
theorem exists_leadsTo_normalize {a : Operator κ} (h : a.CoeffsAll Coeff.Readable) :
    ∃ b, LeadsTo (nestedAt s)
      (fun cap => .ofRule .post (normalizeCoeffRule (κ := κ) (s.capped cap))) a b := by
  suffices ∃ b, ∀ᶠ cap in atTop, a.up (normalizeCoeffRule (κ := κ) (s.capped cap)) = .ok b ∧
      ∀ c ∈ a.coeffs, c.Settles (s.capped cap) by
    obtain ⟨b, hb⟩ := this
    refine ⟨b, ?_⟩
    filter_upwards [hb] with cap hb
    refine ⟨hb.1, fun hname => absurd hname ?_, fun _ => hb.2⟩
    simp [normalizeCoeffRule, Rule.ofOperator, Rule.idle]
  have hc (cap : Nat) : (normalizeCoeffRule (κ := κ) (s.capped cap)).coeff = pure := rfl
  induction a with
  | spin | mode => exact ⟨_, Eventually.of_forall fun _ => ⟨rfl, by simp [coeffs]⟩⟩
  | bin op x y ihx ihy =>
    obtain ⟨hx, hy⟩ := coeffsAll_bin.mp h
    obtain ⟨x', hx⟩ := ihx hx
    obtain ⟨y', hy⟩ := ihy hy
    refine ⟨bin op x' y', ?_⟩
    filter_upwards [hx, hy] with cap hx hy
    exact ⟨by simp only [up, hx.1, hy.1]; rfl, List.forall_mem_append.mpr ⟨hx.2, hy.2⟩⟩
  | scale c x ih =>
    obtain ⟨hread, hx⟩ := coeffsAll_scale.mp h
    obtain ⟨n, -, hn⟩ := Coeff.exists_normal s hread
    obtain ⟨x', hx⟩ := ih hx
    refine ⟨scale n x', ?_⟩
    filter_upwards [hn, hx] with cap hn hx
    refine ⟨?_, List.forall_mem_cons.mpr ⟨hn.2, hx.2⟩⟩
    have hnode : (normalizeCoeffRule (s.capped cap)).operator (scale c x') = .ok (scale n x') := by
      simp only [normalizeCoeffRule, Rule.ofOperator, normalizeCoeff, hn.1, ok_bind]
      split
      · rename_i heq
        rw [eq_of_beq heq]
        rfl
      · rfl
    simp only [up]
    rw [Coeff.up_of_coeff_pure (hc cap), hx.1]
    exact hnode

/-! The whole way -/

/-- The way to the canonical form converges with every cap that is large enough. -/
theorem exists_converges (s : Settings ρ) {a : Operator κ} (hread : ∀ c ∈ a.coeffs, c.Readable)
    (hsig : a.signature = .ok sig) : ∀ᶠ cap in atTop, Converges (s.capped cap) a := by
  have hsame {x : Operator κ} (hx : StandsFor a x) : x.signature = .ok sig := (hx.2 sig).mp hsig
  have hmain : LeadAllFrom (nestedAt s) (StandsFor a)
      (fun cap => (canonicalization κ (s.capped cap)).parts) (IsSettled s sig) := by
    unfold canonicalization
    simp only [parts]
    refine leadAllFrom_cons (leadsFrom_of_achieves (fun x _ => exists_leadsTo_distribute x)
      fun cap => distribute_achieves cap _ a) ?_
    refine leadAllFrom_cons (leadsFrom_check rfl fun x hx => run_distributedCheck hx.2) ?_
    refine leadAllFrom_cons (leadsFrom_check rfl fun x hx => run_gatheredCheck hx.2) ?_
    refine leadAllFrom_cons (leadsFrom_of_leavesAlone fun x hx cap =>
      leavesAlone_checkSignatures (hsame hx.1) (nestedSettle_of_plain x rfl)) ?_
    refine leadAllFrom_cons (leadsFrom_of_achieves (fun x _ => exists_leadsTo_reducePauli x)
      fun cap => (reducePauli_achieves cap _ sig).imp
        (fun x hx => ⟨hx.1.1, hx.2.1, hsame hx.1⟩) fun _ hx => hx) ?_
    refine leadAllFrom_cons (leadsFrom_check rfl fun x hx =>
      run_pauliCheck (hx.2.imp fun _ hx => hx.1)) ?_
    refine leadAllFrom_cons (leadsFrom_of_achieves (fun x _ => exists_leadsTo_gatherQubits x)
      fun cap => gatherQubits_achieves cap sig) ?_
    refine leadAllFrom_cons (leadsFrom_check rfl fun x hx =>
      run_gatheredQubitsCheck (fun _ hw => hw) hx.2) ?_
    refine leadAllFrom_cons (leadsFrom_of_achieves (fun x _ => exists_leadsTo_normalOrder x)
      fun cap => normalOrder_achieves cap _ sig) ?_
    refine leadAllFrom_cons (leadsFrom_check rfl fun x hx => run_normalOrderCheck hx.2) ?_
    refine leadAllFrom_cons (leadsFrom_of_achieves (fun x _ => exists_leadsTo_prune x)
      fun cap => prune_achieves cap sig) ?_
    refine leadAllFrom_cons (leadsFrom_check rfl fun x hx => run_prunedCheck hx.2) ?_
    refine leadAllFrom_cons (leadsFrom_of_achieves (fun x hx => exists_leadsTo_scale hx)
      fun cap => scaleTerms_achieves cap _ sig) ?_
    refine leadAllFrom_cons (leadsFrom_check rfl fun x hx => run_scaledTermsCheck hx.2) ?_
    refine leadAllFrom_cons (leadsFrom_check rfl fun x hx => run_gatheredCheck
      (isFlat_of_chains (hx.2.sumOf.imp fun _ hx => hx.isChain fun _ hw => hw.isWord))) ?_
    refine leadAllFrom_cons (leadsFrom_of_achieves (Q := IsSorted s sig)
      (fun x hx => exists_leadsTo_sort hx)
      fun cap => (sortTerms_achieves _ (s.capped cap) sig).imp (fun _ h => h)
        fun _ h => ⟨h.readable, h.increasing, h.significant⟩) ?_
    refine leadAllFrom_cons (leadsFrom_check rfl fun x hx => run_sortedTermsCheck hx.increasing) ?_
    refine leadAllFrom_cons (leadsFrom_of_achieves (Q := IsSettled s sig)
      (fun x hx => exists_leadsTo_normalize hx.readable)
      fun cap => (normalizeCoeff_achieves (s.capped cap) sig).imp
        (fun _ h => ⟨h.readable, h.increasing, h.significant⟩)
        fun _ h => ⟨h.increasing, h.stable, h.significant⟩) ?_
    refine leadAllFrom_cons (leadsFrom_of_leavesAlone fun x hx cap => ?_) leadAllFrom_nil
    exact leavesAlone_settled (s := s.capped cap) ⟨hx.increasing, hx.stable, hx.significant⟩ _
      (by simp [canonicalization, parts])
  obtain ⟨b, hb, -⟩ := hmain a ⟨hread, sameSignature_congruence.refl a⟩
  filter_upwards [hb] with cap hb
  exact hb.2

/-- Some cap is large enough for the way to converge with the tolerance zero. -/
theorem exists_exact_settings {a : Operator κ} (hread : ∀ c ∈ a.coeffs, c.Readable)
    (hsig : a.signature = .ok sig) : ∃ s : Settings ρ, s.tolerance = 0 ∧ Converges s a := by
  obtain ⟨cap, hcap⟩ := (exists_converges (⟨0, 0⟩ : Settings ρ) hread hsig).exists
  exact ⟨_, rfl, hcap⟩

end Canonical

end SpinBoson
