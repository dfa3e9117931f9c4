import Mathlib
import SpinBoson.Canonical.SortedTerms
import SpinBoson.Proofs.Coeff.Refinement
import SpinBoson.Proofs.Operator.Preservation
import SpinBoson.Proofs.Operator.Terms

/-!
Sums of keyed terms: a term is its coefficient times the element of its key, in every interpretation.
Merging keeps the sum where sums of coefficients mean sums, and so do sorting and leaving out
negligible terms for the values of coefficients.
-/
namespace SpinBoson

variable {κ ι R ρ : Type} [RealScalar ρ] [Scalar κ ρ] [Fintype ι] [CommSemiring R]
  {I : Interpretation κ ι R}

namespace Operator

section Keys

/-- A product of ladder operators is determined by its letters. -/
theorem elementAt_word {a : Operator κ} {letters : List Ladder}
    (h : a.mulFactors.mapM ladder? = some letters) :
    a.dims = ⟨0, 1⟩ ∧ ∀ start, I.elementAt start a =
      Element.ofLetters (letters.map (Element.letter start.modes)).prod := by
  induction a using operands_induction .mul generalizing letters with
  | single a ha =>
    rw [mulFactors, ha] at h
    cases a with
    | mode l =>
      cases h
      exact ⟨rfl, fun start => by simp [Interpretation.elementAt]⟩
    | spin | bin | scale => cases h
  | bin a b iha ihb =>
    rw [mulFactors, operands_bin_self, List.mapM_append] at h
    obtain ⟨as, has, h⟩ := Option.bind_eq_some_iff.mp h
    obtain ⟨bs, hbs, h⟩ := Option.bind_eq_some_iff.mp h
    cases h
    obtain ⟨hd, ha⟩ := iha has
    obtain ⟨_, hb⟩ := ihb hbs
    refine ⟨hd, fun start => ?_⟩
    rw [List.map_append, List.prod_append, map_mul, ← ha, ← hb]
    rfl

theorem elementAt_factor {a : Operator κ} {f : FactorKey} (h : a.factorKey? = some f) :
    a.dims = f.dims ∧ ∀ start, I.elementAt start a = I.factorAt start f := by
  unfold factorKey? at h
  split at h
  · cases h
    exact ⟨rfl, fun _ => rfl⟩
  · obtain ⟨letters, hword, rfl⟩ := Option.map_eq_some_iff.mp h
    exact elementAt_word hword

theorem placesAt_key {as : List (Operator κ)} {key : TermKey} (h : as.mapM factorKey? = some key) :
    (as.map dims).sum = key.dims ∧ ∀ start, placesAt I start as = I.keyAt start key := by
  induction mapM_eq_some.mp h with
  | nil => exact ⟨rfl, fun _ => rfl⟩
  | cons hf hrest ih =>
    obtain ⟨hd, he⟩ := elementAt_factor (I := I) hf
    obtain ⟨hds, hes⟩ := ih (mapM_eq_some.mpr hrest)
    constructor
    · simp only [TermKey.dims, List.map_cons, List.sum_cons, hd] at hds ⊢
      rw [hds]
    · intro start
      rw [placesAt, Interpretation.keyAt, he, hes, hd]

theorem elementAt_key {a : Operator κ} {key : TermKey}
    (h : a.kronFactors.mapM factorKey? = some key) :
    a.dims = key.dims ∧ ∀ start, I.elementAt start a = I.keyAt start key := by
  obtain ⟨hd, he⟩ := placesAt_key (I := I) h
  exact ⟨(dims_eq_sum_kronFactors a).trans hd,
    fun start => (elementAt_eq_placesAt a start).trans (he start)⟩

end Keys

/-! Sums -/

theorem meaningful_terms {a : Operator κ} (h : a.Meaningful I) :
    ∀ t ∈ a.terms, t.Meaningful I ∧ t.dims = a.dims := by
  induction a using operands_induction .add with
  | single a ha =>
    rw [terms, ha, List.forall_mem_singleton]
    exact ⟨h, rfl⟩
  | bin a b iha ihb =>
    obtain ⟨ha, hb, hd⟩ := meaningful_add.mp h
    rw [terms, operands_bin_self, List.forall_mem_append]
    exact ⟨iha ha, fun t ht => ⟨(ihb hb t ht).1, (ihb hb t ht).2.trans hd⟩⟩

theorem elementAt_terms (a : Operator κ) (start : Dims) :
    I.elementAt start a = (a.terms.map (I.elementAt start)).sum := by
  induction a using operands_induction .add with
  | single a ha => simp [terms, ha]
  | bin a b iha ihb =>
    rw [terms, operands_bin_self, List.map_append, List.sum_append, ← iha, ← ihb]
    rfl

/-- A sum of terms has their meaning. -/
theorem sum_meaning {as : List (Operator κ)} {b : Operator κ} {d : Dims} (h : sum? as = some b)
    (has : ∀ a ∈ as, a.Meaningful I ∧ a.dims = d) :
    b.Meaningful I ∧ b.dims = d ∧
      ∀ start, I.elementAt start b = (as.map (I.elementAt start)).sum := by
  induction h using leftNested?_induction with
  | single a =>
    obtain ⟨hm, hd⟩ := has a (List.mem_singleton_self a)
    exact ⟨hm, hd, by simp⟩
  | append as b a _ ih =>
    rw [List.forall_mem_append, List.forall_mem_singleton] at has
    obtain ⟨has, hm, hd⟩ := has
    obtain ⟨hmb, hdb, he⟩ := ih has
    refine ⟨meaningful_add.mpr ⟨hmb, hm, hd.trans hdb.symm⟩, hdb, fun start => ?_⟩
    rw [List.map_append, List.sum_append, ← he, List.map_singleton, List.sum_singleton]
    rfl

/-! Keyed terms -/

namespace KeyedTerm

/-- Whether a term has a meaning, with such dimensions, and its chain is what its key says. -/
structure Valid (I : Interpretation κ ι R) (d : Dims) (t : KeyedTerm κ) : Prop where
  defined : I.Defined t.coeff
  meaningful : t.chain.Meaningful I
  dims_eq : t.chain.dims = d
  element_eq : ∀ start, I.elementAt start t.chain = I.keyAt start t.key

theorem Valid.with_coeff {d : Dims} {t : KeyedTerm κ} (h : t.Valid I d) {c : Coeff κ}
    (hc : I.Defined c) : Valid I d { t with coeff := c } :=
  ⟨hc, h.meaningful, h.dims_eq, h.element_eq⟩

end KeyedTerm

/-- What terms add up to. -/
noncomputable def totalAt (I : Interpretation κ ι R) (start : Dims) (ts : List (KeyedTerm κ)) :
    Element ι R :=
  (ts.map (I.termAt start)).sum

theorem keyed_valid {a : Operator κ} {t : KeyedTerm κ} (h : a.keyed? = some t)
    (ha : a.Meaningful I) :
    t.Valid I a.dims ∧ ∀ start, I.termAt start t = I.elementAt start a := by
  unfold keyed? at h
  split at h
  · rename_i c chain
    obtain ⟨key, hkey, rfl⟩ := Option.map_eq_some_iff.mp h
    obtain ⟨hc, hchain⟩ := meaningful_scale.mp ha
    have he := (elementAt_key (I := I) (a := chain) hkey).2
    refine ⟨⟨hc, hchain, rfl, he⟩, fun start => ?_⟩
    simp only [Interpretation.termAt, Interpretation.elementAt, he]
  · rename_i hscale
    obtain ⟨key, hkey, rfl⟩ := Option.map_eq_some_iff.mp h
    have hun : a.unscaled = a := by
      cases a with
      | scale c x => exact absurd rfl (hscale c x)
      | _ => rfl
    rw [termKey?, hun] at hkey
    have he := (elementAt_key (I := I) hkey).2
    refine ⟨⟨I.defined_lit _, ha, rfl, he⟩, fun start => ?_⟩
    simp only [Interpretation.termAt, I.number_one, one_smul, he]

theorem keyed_total {as : List (Operator κ)} {ts : List (KeyedTerm κ)} {d : Dims}
    (h : as.mapM keyed? = some ts) (has : ∀ a ∈ as, a.Meaningful I ∧ a.dims = d) :
    (∀ t ∈ ts, t.Valid I d) ∧
      ∀ start, totalAt I start ts = (as.map (I.elementAt start)).sum := by
  induction mapM_eq_some.mp h with
  | nil => exact ⟨by simp, fun _ => rfl⟩
  | @cons a t as ts ht hrest ih =>
    obtain ⟨ha, hd⟩ := has a List.mem_cons_self
    obtain ⟨hv, he⟩ := keyed_valid ht ha
    obtain ⟨hvs, hes⟩ := ih (mapM_eq_some.mpr hrest) fun x hx => has x (List.mem_cons_of_mem _ hx)
    refine ⟨List.forall_mem_cons.mpr ⟨hd ▸ hv, hvs⟩, fun start => ?_⟩
    simp only [totalAt, List.map_cons, List.sum_cons, he] at hes ⊢
    rw [hes]

variable (I) in
/-- Whether sums of coefficients mean sums of numbers. -/
def SumsMeanSums : Prop :=
  ∀ {c d : Coeff κ}, I.Defined c → I.Defined d →
    I.Defined (.add c d) ∧ I.number (.add c d) = I.number c + I.number d

theorem mergeKeyed_go_total (hI : SumsMeanSums I) {ts : List (KeyedTerm κ)} {t : KeyedTerm κ}
    (ht : I.Defined t.coeff) (hts : ∀ u ∈ ts, I.Defined u.coeff) (start : Dims) :
    totalAt I start (mergeKeyed.go t ts) = totalAt I start (t :: ts) := by
  induction ts generalizing t with
  | nil => rfl
  | cons u rest ih =>
    rw [List.forall_mem_cons] at hts
    unfold mergeKeyed.go
    split
    · rename_i hkey
      obtain ⟨hsum, hnumber⟩ := hI ht hts.1
      rw [ih hsum hts.2]
      simp only [totalAt, List.map_cons, List.sum_cons, Interpretation.termAt, hkey,
        hnumber, add_smul, add_assoc]
    · have hrest := ih hts.1 hts.2
      simp only [totalAt, List.map_cons, List.sum_cons] at hrest ⊢
      rw [hrest]

/-- Sorting and merging keeps the sum. -/
theorem merged_total (hI : SumsMeanSums I) {ts : List (KeyedTerm κ)}
    (hts : ∀ t ∈ ts, I.Defined t.coeff) (start : Dims) :
    totalAt I start (mergedTerms ts) = totalAt I start ts := by
  have hperm := List.mergeSort_perm ts fun t u => t.key.le u.key
  have hmerge : totalAt I start (mergedTerms ts) =
      totalAt I start (ts.mergeSort fun t u => t.key.le u.key) := by
    have hdefined := fun t ht => hts t (hperm.mem_iff.mp ht)
    unfold mergedTerms
    cases hsort : ts.mergeSort fun t u => t.key.le u.key with
    | nil => rfl
    | cons t rest =>
      rw [hsort, List.forall_mem_cons] at hdefined
      exact mergeKeyed_go_total hI hdefined.1 hdefined.2 start
  rw [hmerge]
  exact (hperm.map _).sum_eq

/-- What a sum of terms means is what they add up to. -/
theorem elementAt_sum {sig : Signature} {ts : List (KeyedTerm κ)}
    (hts : ∀ t ∈ ts, t.IsNormal sig) {a : Operator κ} (h : a.terms = ts.map KeyedTerm.operator)
    (start : Dims) : I.elementAt start a = totalAt I start ts := by
  rw [elementAt_terms, h, totalAt, List.map_map]
  refine congrArg List.sum (List.map_congr_left fun t ht => ?_)
  have hkey := key_of_chain (hts t ht).1.word_nil_notMem (hts t ht).2
  simp only [Function.comp_apply, KeyedTerm.operator, Interpretation.elementAt,
    Interpretation.termAt, (elementAt_key (I := I) hkey).2]

theorem preserves_scaleTerm (a : Operator κ) : Preserves I a a.scaleTerm := by
  unfold scaleTerm
  split
  · exact (preserves_congruence I).refl _
  · exact (preserves_congruence I).refl _
  · intro h
    refine ⟨meaningful_scale.mpr ⟨I.defined_lit _, h⟩, rfl, fun start => ?_⟩
    simp only [Interpretation.elementAt, I.number_one, one_smul]

/-- With the tolerance zero only zero is negligible. -/
theorem isNegligible_iff [ExactRing κ] {c : Coeff κ} :
    isNegligible (0 : ρ) c = true ↔ c = .lit 0 := by
  cases c with
  | lit z => simp [isNegligible, ExactRing.isNegligible_zero]
  | _ => simp [isNegligible]

/-! The values of coefficients -/

section Values

open Interpretation

variable [ExactScalar κ] {β : Coeff.Bindings κ}

theorem sumsMeanSums_ofBindings : SumsMeanSums (ofBindings β) :=
  fun hc hd => ⟨Coeff.defined_add.mpr ⟨hc, hd⟩, Coeff.number_add hc hd⟩

section Normalized

variable [OrderKey κ]

theorem normalized_total {s : Settings ρ} (hs : s.tolerance = 0) {d : Dims}
    {ts ns : List (KeyedTerm κ)} (hts : ∀ t ∈ ts, t.Valid (ofBindings β) d)
    (h : ts.mapM (fun t => return { t with coeff := ← t.coeff.normalize s }) =
      (.ok ns : Except Error _)) :
    (∀ t ∈ ns, t.Valid (ofBindings β) d) ∧
      ∀ start, totalAt (ofBindings β) start ns = totalAt (ofBindings β) start ts := by
  induction mapM_eq_ok.mp h with
  | nil => exact ⟨by simp, fun _ => rfl⟩
  | @cons t n ts ns hn hrest ih =>
    have ht := hts t List.mem_cons_self
    obtain ⟨hvs, hes⟩ := ih (fun u hu => hts u (List.mem_cons_of_mem _ hu)) (mapM_eq_ok.mpr hrest)
    obtain ⟨c, hc, hn⟩ := bind_eq_ok.mp hn
    cases hn
    obtain ⟨hdef, hnum⟩ := Coeff.normalize_refines hs hc ht.defined
    refine ⟨List.forall_mem_cons.mpr ⟨ht.with_coeff hdef, hvs⟩, fun start => ?_⟩
    simp only [totalAt, List.map_cons, List.sum_cons, termAt, number_ofBindings, hnum] at hes ⊢
    rw [hes]

theorem sortedTerms_total {s : Settings ρ} (hs : s.tolerance = 0) {d : Dims}
    {ts ns : List (KeyedTerm κ)} (hts : ∀ t ∈ ts, t.Valid (ofBindings β) d)
    (h : sortedTerms s ts = .ok ns) :
    (∀ t ∈ ns, t.Valid (ofBindings β) d) ∧
      ∀ start, totalAt (ofBindings β) start ns = totalAt (ofBindings β) start ts := by
  have hmerged : ∀ t ∈ mergedTerms ts, t.Valid (ofBindings β) d :=
    mergedTerms_forall (fun _ _ ht hu =>
      ht.with_coeff (sumsMeanSums_ofBindings ht.defined hu.defined).1) hts
  obtain ⟨hv, he⟩ := normalized_total hs hmerged h
  have hdefined := fun t ht => (hts t ht).defined
  exact ⟨hv, fun start => (he start).trans (merged_total sumsMeanSums_ofBindings hdefined start)⟩

end Normalized

/-- Leaving out terms with the coefficient zero changes no sum. -/
theorem totalAt_filter (start : Dims) (ts : List (KeyedTerm κ)) :
    totalAt (ofBindings β) start (ts.filter fun t => !isNegligible (0 : ρ) t.coeff) =
      totalAt (ofBindings β) start ts := by
  induction ts with
  | nil => rfl
  | cons t ts ih =>
    by_cases hz : isNegligible (0 : ρ) t.coeff = true
    · have hzero : (ofBindings β).termAt start t = 0 := by
        rw [termAt, isNegligible_iff.mp hz, number_ofBindings, Coeff.number_lit, zero_smul]
      simpa [totalAt, hz, hzero] using ih
    · simpa [totalAt, hz] using ih

theorem sumOfKeyed_meaning {d : Dims} {ts : List (KeyedTerm κ)}
    (hts : ∀ t ∈ ts, t.Valid (ofBindings β) d) {b : Operator κ}
    (h : sumOfKeyed? (0 : ρ) ts = some b) :
    b.Meaningful (ofBindings β) ∧ b.dims = d ∧
      ∀ start, (ofBindings β).elementAt start b = totalAt (ofBindings β) start ts := by
  unfold sumOfKeyed? at h
  dsimp only at h
  split at h
  · rename_i c hsum
    cases h
    have hkept : ∀ t ∈ ts.filter fun t => !isNegligible (0 : ρ) t.coeff, t.Valid (ofBindings β) d :=
      fun t ht => hts t (List.mem_of_mem_filter ht)
    obtain ⟨hm, hd, he⟩ := sum_meaning (I := ofBindings β) (d := d) hsum (by
      intro x hx
      obtain ⟨t, ht, rfl⟩ := List.mem_map.mp hx
      exact ⟨meaningful_scale.mpr ⟨(hkept t ht).defined, (hkept t ht).meaningful⟩,
        (hkept t ht).dims_eq⟩)
    refine ⟨hm, hd, fun start => ?_⟩
    rw [he, ← totalAt_filter, totalAt, List.map_map]
    refine congrArg List.sum (List.map_congr_left fun t ht => ?_)
    simp only [Function.comp_apply, Interpretation.elementAt, termAt,
      (hkept t ht).element_eq]
  · rename_i hsum
    cases ts with
    | nil => cases h
    | cons t ts =>
      cases h
      have ht := hts t List.mem_cons_self
      refine ⟨meaningful_scale.mpr ⟨Coeff.defined_lit _, ht.meaningful⟩, ht.dims_eq,
        fun start => ?_⟩
      rw [sum?, leftNested?_eq_none_iff, List.map_eq_nil_iff] at hsum
      rw [← totalAt_filter, hsum]
      simp only [Interpretation.elementAt, number_ofBindings, Coeff.number_lit, zero_smul]
      rfl

variable [OrderKey κ]

theorem preserves_sortTerms {s : Settings ρ} (hs : s.tolerance = 0) {a b : Operator κ}
    (h : a.sortTerms s = .ok b) : Preserves (ofBindings β) a b := by
  unfold sortTerms at h
  split at h
  · rename_i x y
    split at h
    · cases h
      exact (preserves_congruence (ofBindings β)).refl _
    · rename_i ts hts
      obtain ⟨ns, hns, h⟩ := bind_eq_ok.mp h
      intro ha
      obtain ⟨hv, he⟩ := keyed_total hts (meaningful_terms ha)
      obtain ⟨hvn, hen⟩ := sortedTerms_total hs hv hns
      rw [hs] at h
      cases hsum : sumOfKeyed? (0 : ρ) ns with
      | none =>
        rw [hsum] at h
        simp only [Option.getD_none, BEq.rfl, if_true] at h
        cases h
        exact ⟨ha, rfl, fun _ => rfl⟩
      | some c =>
        rw [hsum] at h
        obtain ⟨hm, hd, hec⟩ := sumOfKeyed_meaning hvn hsum
        have hc : c.Meaningful (ofBindings β) ∧ c.dims = (add x y).dims ∧
            ∀ start, (ofBindings β).elementAt start c = (ofBindings β).elementAt start (add x y) :=
          ⟨hm, hd, fun start => by rw [hec, hen, he, ← elementAt_terms]⟩
        simp only [Option.getD_some] at h
        split at h
        · cases h
          exact ⟨ha, rfl, fun _ => rfl⟩
        · cases h
          exact hc
  · cases h
    exact (preserves_congruence (ofBindings β)).refl _

theorem preserves_normalizeCoeff {s : Settings ρ} (hs : s.tolerance = 0) {a b : Operator κ}
    (h : a.normalizeCoeff s = .ok b) : Preserves (ofBindings β) a b := by
  unfold normalizeCoeff at h
  split at h
  · rename_i c x
    obtain ⟨n, hn, h⟩ := bind_eq_ok.mp h
    split at h
    · cases h
      exact (preserves_congruence (ofBindings β)).refl _
    · cases h
      intro ha
      obtain ⟨hc, hx⟩ := meaningful_scale.mp ha
      obtain ⟨hdef, hnum⟩ := Coeff.normalize_refines hs hn hc
      refine ⟨meaningful_scale.mpr ⟨hdef, hx⟩, rfl, fun start => ?_⟩
      simp only [Interpretation.elementAt, number_ofBindings, hnum]
  · cases h
    exact (preserves_congruence (ofBindings β)).refl _

end Values

end Operator

end SpinBoson
