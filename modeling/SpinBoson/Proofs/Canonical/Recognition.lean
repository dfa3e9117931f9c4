import SpinBoson.Proofs.Canonical.Acceptance
import SpinBoson.Proofs.Canonical.Verified

/-!
The last check accepts exactly the canonical shape: left-nested sums of scaled chains on the same
subsystems, with keys that increase and coefficients in order.
-/
namespace SpinBoson

variable {κ ρ α : Type} [RealScalar ρ] [Scalar κ ρ]

namespace Operator

/-! The shape -/

section Shape

omit [RealScalar ρ] [Scalar κ ρ]

/-- Left-nested chains of Pauli operators and then normal words. -/
def IsNormalChain (a : Operator κ) : Prop :=
  ∃ (ps : List Pauli) (ws : List (Operator κ)), (∀ w ∈ ws, w.IsNormalWord) ∧
    kronChain? (ps.map pauli ++ ws) = some a

/-- A normal chain has the qubits and modes of its signature. -/
theorem IsNormalChain.arranged {a : Operator κ} (h : a.IsNormalChain) {s : Signature}
    (hs : a.signature = .ok s) : a.IsArranged IsNormalWord s := by
  obtain ⟨ps, ws, hws, hchain⟩ := h
  have hsig := signature_of_places (fun w hw => (hws w hw).isWord.signature) hchain
  obtain rfl := Except.ok.inj (hsig.symm.trans hs)
  exact ⟨ps, ws, by simp [List.count_append, List.count_replicate],
    by simp [List.count_append, List.count_replicate], hws, hchain⟩

theorem IsArranged.isNormalChain {a : Operator κ} {s : Signature}
    (h : a.IsArranged IsNormalWord s) : a.IsNormalChain := by
  obtain ⟨ps, ws, _, _, hws, hchain⟩ := h
  exact ⟨ps, ws, hws, hchain⟩

/-- A term whose normal chain has its key is the term that the key stands for. -/
theorem KeyedTerm.isNormal_iff {s : Signature} {t : KeyedTerm κ} : t.IsNormal s ↔
    t.chain.IsArranged IsNormalWord s ∧ t.chain.termKey? = some t.key := by
  constructor
  · intro h
    exact ⟨h.arranged, termKey_of_chain h.1.word_nil_notMem h.2⟩
  · rintro ⟨harranged, htermKey⟩
    obtain ⟨key, hkey, hchain⟩ := isArranged_iff_key.mp harranged
    have hplain := termKey_of_chain hkey.word_nil_notMem hchain
    obtain rfl := Option.some.inj (hplain.symm.trans htermKey)
    exact ⟨hkey, hchain⟩

variable [OrderKey κ]

/-- Terms with normal chains, under the keys of these, and with sums and products in order. -/
structure KeyedTerm.IsOrderly (t : KeyedTerm κ) : Prop where
  chain : t.chain.IsNormalChain
  key : t.chain.termKey? = some t.key
  coeff : t.coeff.AllNodes Coeff.InOrder

/-- Left-nested sums of orderly terms on the same subsystems, with keys that increase. -/
def HasCanonicalShape (a : Operator κ) : Prop :=
  ∃ ts : List (KeyedTerm κ), sum? (ts.map KeyedTerm.operator) = some a ∧ Increasing ts ∧
    (∃ s, ∀ t ∈ ts, t.chain.signature = .ok s) ∧ ∀ t ∈ ts, t.IsOrderly

theorem hasCanonicalShape_iff {a : Operator κ} : a.HasCanonicalShape ↔
    (∃ s, a.IsIncreasingSum s) ∧ ∀ c ∈ a.coeffs, c.AllNodes Coeff.InOrder := by
  constructor
  · rintro ⟨ts, hsum, hinc, ⟨s, hs⟩, hts⟩
    have hnormal : ∀ t ∈ ts, t.IsNormal s := fun t ht =>
      KeyedTerm.isNormal_iff.mpr ⟨(hts t ht).chain.arranged (hs t ht), (hts t ht).key⟩
    exact ⟨⟨s, ts, hsum, hinc, hnormal⟩,
      (coeffsAll_keyed hnormal (terms_of_sum hsum)).mpr fun t ht => (hts t ht).coeff⟩
  · rintro ⟨⟨s, ts, hsum, hinc, hnormal⟩, hcoeffs⟩
    replace hcoeffs := (coeffsAll_keyed hnormal (terms_of_sum hsum)).mp hcoeffs
    refine ⟨ts, hsum, hinc, ⟨qubitsThenModes s, fun t ht => ?_⟩, fun t ht => ?_⟩
    · exact (hnormal t ht).arranged.signature fun w hw => hw.isWord.signature
    · obtain ⟨harranged, hkey⟩ := KeyedTerm.isNormal_iff.mp (hnormal t ht)
      exact ⟨harranged.isNormalChain, hkey, hcoeffs t ht⟩

end Shape

/-! What each check asks for -/

theorem coeffOrderViolation_eq_none_iff [OrderKey κ] {e : Coeff κ} :
    coeffOrderViolation? e = none ↔ e.InOrder := by
  refine ⟨fun h => ?_, Canonical.coeffOrderViolation_of_inOrder⟩
  have ascending {op : Coeff.Op} {x y : Coeff κ} {v : Violation}
      (h : (if keysAscend (((Coeff.bin op x y).operands op).map Coeff.orderKey) then none
        else some v) = none) : Coeff.Ascending ((Coeff.bin op x y).operands op) := by
    refine List.pairwise_map.mp (Coeff.keysAscend_iff.mp ?_)
    by_contra hasc
    rw [if_neg hasc] at h
    cases h
  unfold coeffOrderViolation? at h
  dsimp only at h
  split at h
  · cases h
  · cases h
  · rename_i hright
    exact fun _ => ⟨hright, ascending h⟩
  · rename_i hright
    exact fun _ => ⟨hright, ascending h⟩
  · rename_i hadd hmul
    cases e with
    | bin op x y =>
      rintro (rfl | rfl)
      · exact (hadd x y rfl).elim
      · exact (hmul x y rfl).elim
    | lit | var | raw | neg | app => exact trivial

omit [RealScalar ρ] [Scalar κ ρ] in
/-- Sums of normal chains that have coefficients are sums of terms. -/
theorem isTermSum_of_scaled {s : Signature} {a : Operator κ}
    (h : a.SumOf (IsArranged IsNormalWord s))
    (hscaled : a.AllVisited isSum fun x => (x.isSum || x.isScaled) = true) : a.IsTermSum s := by
  induction a with
  | spin | mode => cases hscaled
  | scale c x =>
    obtain ⟨key, hkey⟩ := isArranged_iff_key.mp h
    exact ⟨[⟨key, c, x⟩], rfl, List.forall_mem_singleton.mpr hkey⟩
  | bin op x y ihx ihy =>
    cases op with
    | add => exact isTermSum_add.mpr ⟨ihx h.1 (hscaled.2 rfl).1, ihy h.2 (hscaled.2 rfl).2⟩
    | sub | mul | kron => cases hscaled.1

/-- A sum that has no sum on its right at any node is the left-nested one of its terms. -/
theorem sum_terms {a : Operator κ} (h : a.AllNodes fun x => x.nestingViolation? = none) :
    sum? a.terms = some a := by
  induction a with
  | spin | mode | scale => rfl
  | bin op x y ihx _ =>
    cases op with
    | sub | mul | kron => rfl
    | add =>
      have hy : y.terms = [y] := by
        cases y with
        | spin | mode | scale => rfl
        | bin op' c d =>
          cases op' with
          | add => cases h.1
          | sub | mul | kron => rfl
      rw [terms, operands_bin_self, ← terms, ← terms, hy]
      exact leftNested?_append_eq_some.mpr (.inr ⟨x, ihx h.2.1, rfl⟩)

/-- Terms that the check accepts have increasing keys, all of them after the previous one. -/
theorem increasing_of_termsViolation {s : Signature} {ts : List (KeyedTerm κ)}
    (hts : ∀ t ∈ ts, t.IsNormal s) {previous : Option TermKey}
    (h : termsViolation? previous (ts.map KeyedTerm.operator) = none) :
    Increasing ts ∧ ∀ p ∈ previous, ∀ t ∈ ts, p.lt t.key = true := by
  induction ts generalizing previous with
  | nil => exact ⟨List.Pairwise.nil, fun _ _ _ ht => absurd ht List.not_mem_nil⟩
  | cons t ts ih =>
    rw [List.forall_mem_cons] at hts
    rw [List.map_cons, termsViolation?, hts.1.termKey] at h
    simp only [KeyedTerm.operator, isScaled, Bool.not_true, Bool.false_eq_true, if_false] at h
    split at h
    · cases h
    · rename_i hany
      obtain ⟨hinc, hlater⟩ := ih hts.2 h
      refine ⟨List.pairwise_cons.mpr ⟨?_, hinc⟩, fun p hp => ?_⟩
      · exact List.forall_mem_map.mpr (hlater t.key rfl)
      · obtain rfl := hp
        have hlt : p.lt t.key = true := by simpa [TermKey.le] using hany
        refine List.forall_mem_cons.mpr ⟨hlt, fun u hu => ?_⟩
        exact TermKey.lt_iff.mpr
          (lt_trans (TermKey.lt_iff.mp hlt) (TermKey.lt_iff.mp (hlater t.key rfl u hu)))

/-! All checks together -/

/-- What the checks ask of an operator, each at the nodes that it visits. -/
structure IsVerified [OrderKey κ] (a : Operator κ) : Prop where
  distributed : a.AllNodes fun x => x.isDistributed = true
  gathered : a.AllNodes fun x => x.isGathered = true
  signature : ∃ s, a.signature = .ok s
  reduced : a.AllNodes fun x => x.isPauliReduced = true
  qubitsInFront : a.AllNodes fun x => x.gatheredQubitsViolation? = none
  inNormalOrder : a.AllNodes fun x => x.normalOrderViolation? = none
  pruned : a.AllNodes fun x => x.hasIdentityFactor = false
  scaled : a.AllVisited isSum fun x => (x.isSum || x.isScaled) = true
  sorted : a.AllVisited (fun x => !x.isSum) fun x => x.sortedTermsViolation? = none
  coeffsInOrder : ∀ c ∈ a.coeffs, c.AllNodes Coeff.InOrder
  leftNested : a.AllNodes fun x => x.nestingViolation? = none

section Verified

variable [OrderKey κ] {a : Operator κ}

/-- The first checks together leave room for sums of normal chains alone. -/
theorem IsVerified.sumOf (h : a.IsVerified) :
    ∃ s, a.SumOf (IsArranged IsNormalWord s) := by
  obtain ⟨s, hs⟩ := h.signature
  have hproducts := (sumOf_product h.distributed h.gathered).and_signature hs
  have hchains : a.SumOf fun x => x.IsChain ∧ qubitsFirst.ranks x = ↑(s.map placeRank) := by
    refine (hproducts.and_allNodes (h.reduced.imp fun _ => reducePauli_of_reduced)).imp ?_
    rintro x ⟨⟨hx, hsig⟩, hfixed⟩
    have hchain := isChain_of_fixed hx hsig hfixed
    exact ⟨hchain, hchain.ranks hsig⟩
  have harranged : a.SumOf (IsArranged IsWord s) := by
    refine (hchains.and_allNodes
      (h.qubitsInFront.imp fun _ => gatheredQubitsViolation_eq_none_iff.mp)).imp ?_
    rintro x ⟨⟨hx, hranks⟩, hfixed⟩
    exact isArranged_of_fixed hx hranks hfixed
  have hordered : a.SumOf (IsArranged IsOrderedWord s) := by
    refine (harranged.and_allNodes h.inNormalOrder).imp ?_
    rintro x ⟨hx, hcheck⟩
    exact (hx.and_allNodes hcheck).imp fun w hw => exists_word_of_check hw.1 hw.2
  refine ⟨s, (hordered.and_allNodes
    (h.pruned.imp fun _ => hasIdentityFactor_eq_false_iff.mp)).imp ?_⟩
  rintro x ⟨hx, hfixed⟩
  refine (hx.and_allNodes hfixed).imp ?_
  rintro w ⟨hw, hfixed⟩
  exact rewrite_of_allNodes hfixed ▸ hw.prune

/-- The checks of sums leave room for increasing ones alone. -/
theorem IsVerified.increasing (h : a.IsVerified) : ∃ s, a.IsIncreasingSum s := by
  obtain ⟨s, hsum⟩ := h.sumOf
  obtain ⟨ts, hterms, hts⟩ := isTermSum_of_scaled hsum h.scaled
  have hleft := sum_terms h.leftNested
  rw [hterms] at hleft
  refine ⟨s, ts, hleft, ?_, hts⟩
  cases hadd : a.isSum with
  | true =>
    obtain ⟨x, y, rfl⟩ := isSum_iff.mp hadd
    have hviolation : termsViolation? none (add x y).terms = none := h.sorted.1
    rw [hterms] at hviolation
    exact (increasing_of_termsViolation hts hviolation).1
  | false =>
    rcases IsTermSum.cases ⟨ts, hterms, hts⟩ with h | ⟨t, _, rfl⟩
    · cases hadd.symm.trans h
    · have hone : ts.map KeyedTerm.operator = [t.operator] := hterms.symm
      obtain ⟨u, rfl, _⟩ := List.map_eq_singleton_iff.mp hone
      exact List.pairwise_singleton _ _

theorem isVerified_iff : a.IsVerified ↔ a.HasCanonicalShape := by
  rw [hasCanonicalShape_iff]
  constructor
  · intro h
    exact ⟨h.increasing, h.coeffsInOrder⟩
  · rintro ⟨⟨s, h⟩, hcoeffs⟩
    have harranged := h.isTermSum.sumOf
    have hchains := harranged.imp fun _ hx => hx.isChain fun _ hw => hw.isWord
    obtain ⟨hdistributed, hgathered⟩ := Canonical.isFlat_of_chains hchains
    exact {
      distributed := hdistributed
      gathered := hgathered
      signature := ⟨_, Canonical.signature_of_increasing h⟩
      reduced := Canonical.isPauliReduced_of_chains hchains
      qubitsInFront :=
        Canonical.gatheredQubitsViolation_of_arranged (fun _ hw => hw.isWord) harranged
      inNormalOrder := Canonical.normalOrderViolation_of_ordered
        (harranged.imp fun _ hx => hx.imp fun _ hw => hw.isOrderedWord)
      pruned := Canonical.hasIdentityFactor_of_normal harranged
      scaled := h.isTermSum.isScaled
      sorted := h.isSorted
      coeffsInOrder := hcoeffs
      leftNested := Canonical.nestingViolation_of_increasing h }

end Verified

end Operator

namespace Canonical

open Operator Container Pass

variable [OrderKey κ] [BEq α] [Walkable κ α] [Container κ α]

/-- The last check accepts exactly values all operators of which have the canonical shape. -/
theorem verification_accepts (hα : levels κ α ≤ growth) :
    (verification κ : Pass α).Accepts fun a =>
      ∀ x ∈ operators (κ := κ) a, x.HasCanonicalShape := by
  have hproper : (check κ .post properOrderCheck : Pass α).Accepts fun a =>
      ∀ x ∈ operators (κ := κ) a, (∀ c ∈ x.coeffs, c.AllNodes Coeff.InOrder) ∧
        x.AllNodes fun y => y.nestingViolation? = none := by
    refine (check_post_accepts ⟨rfl, rfl, rfl⟩ (fun c d h => (Rule.verdict_eq_ok.mp h).2)
      fun x y h => (Rule.verdict_eq_ok.mp h).2).congr fun a => forall₂_congr fun x _ => ?_
    simp only [properOrderCheck, Rule.ofCheck, Rule.ofOperator, Rule.verdict_eq_ok, and_true,
      coeffOrderViolation_eq_none_iff]
  have hall : (verification κ : Pass α).Accepts _ :=
    check_up_accepts.cons <| check_up_accepts.cons <| (checkSignatures_accepts hα).cons <|
      check_up_accepts.cons <| check_up_accepts.cons <| check_up_accepts.cons <|
        check_up_accepts.cons <| (check_down_accepts hα).cons <| (check_down_accepts hα).cons <|
          hproper.cons accepts_nil
  refine hall.congr fun a => ?_
  simp only [← isVerified_iff, ite_eq_left_iff, reduceCtorEq, imp_false, ite_eq_right_iff,
    Bool.not_eq_true, Bool.not_eq_false, and_true, ← forall_and]
  refine forall₂_congr fun x _ => ⟨?_, ?_⟩
  · rintro ⟨h₁, h₂, h₃, h₄, h₅, h₆, h₇, h₈, h₉, h₁₀, h₁₁⟩
    exact ⟨h₁, h₂, h₃, h₄, h₅, h₆, h₇, h₈, h₉, h₁₀, h₁₁⟩
  · rintro ⟨h₁, h₂, h₃, h₄, h₅, h₆, h₇, h₈, h₉, h₁₀, h₁₁⟩
    exact ⟨h₁, h₂, h₃, h₄, h₅, h₆, h₇, h₈, h₉, h₁₀, h₁₁⟩

/-- The last check returns operators of the canonical shape as they are, and fails on all others. -/
theorem verification_run_eq_ok_iff (a : Operator κ) :
    ((verification κ : Pass (Operator κ)).run a = .ok a ↔ a.HasCanonicalShape) ∧
      ((∃ e, (verification κ : Pass (Operator κ)).run a = .error e) ↔ ¬ a.HasCanonicalShape) := by
  have haccepts : (verification κ : Pass (Operator κ)).Accepts HasCanonicalShape :=
    (verification_accepts (Nat.zero_le _)).congr fun _ => List.forall_mem_singleton
  have hok : (verification κ : Pass (Operator κ)).run a = .ok a ↔ a.HasCanonicalShape :=
    (haccepts a a).trans (and_iff_right rfl)
  refine ⟨hok, ?_, haccepts.error⟩
  rintro ⟨e, he⟩ hshape
  cases he.symm.trans (hok.mpr hshape)

end Canonical

end SpinBoson
