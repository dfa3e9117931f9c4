import SpinBoson.Proofs.Coeff.Evaluation
import SpinBoson.Proofs.Operator.TermWalks

/-!
Sorting the terms of a sum, by their keys. Each key that occurs is left once, with the chain of the
first term that has it and with all that the coefficients of such terms come to, unless that is
negligible.
-/
namespace SpinBoson.Operator

variable {κ ρ : Type} [RealScalar ρ] [Scalar κ ρ]

/-- The terms with one key, in their order. -/
def withKey (k : TermKey) (ts : List (KeyedTerm κ)) : List (KeyedTerm κ) :=
  ts.filter (·.key = k)

/-- The sum, from left to right, of the coefficients of the terms with one key. -/
def coeffSum? (k : TermKey) (ts : List (KeyedTerm κ)) : Option (Coeff κ) :=
  leftNested? .add ((withKey k ts).map KeyedTerm.coeff)

/-- The chain of the first term with one key. -/
def firstChain? (k : TermKey) (ts : List (KeyedTerm κ)) : Option (Operator κ) :=
  (withKey k ts).head?.map KeyedTerm.chain

/-- The terms of a sum that have a key, by their parts. -/
def keyedTerms (a : Operator κ) : List (KeyedTerm κ) :=
  a.terms.filterMap keyed?

/--
The terms that are left of a sum whose coefficients come to some total for each key, in the order of
their keys. Each has the total of its key and the chain of the first term with it, and exactly those
keys occur whose total is not negligible.
-/
structure AreMerged (tolerance : ρ) (total : TermKey → Coeff κ) (a : Operator κ)
    (ts : List (KeyedTerm κ)) : Prop where
  increasing : Increasing ts
  chain : ∀ t ∈ ts, firstChain? t.key a.keyedTerms = some t.chain
  coeff : ∀ t ∈ ts, t.coeff = total t.key
  complete : ∀ k, k ∈ ts.map KeyedTerm.key ↔
    k ∈ a.keyedTerms.map KeyedTerm.key ∧ isNegligible tolerance (total k) = false

/--
What is left of a sum is the left-nested sum of its merged terms. If there are none, the first chain
with the least key stays, with the coefficient zero.
-/
inductive IsMergedSum (tolerance : ρ) (total : TermKey → Coeff κ) (a : Operator κ) :
    Operator κ → Prop where
  | kept {ts : List (KeyedTerm κ)} {b : Operator κ} (merged : AreMerged tolerance total a ts)
      (sum : sum? (ts.map KeyedTerm.operator) = some b) : IsMergedSum tolerance total a b
  | cancelled {k : TermKey} {x : Operator κ} (chain : firstChain? k a.keyedTerms = some x)
      (least : ∀ l ∈ a.keyedTerms.map KeyedTerm.key, k.le l = true)
      (cancel : ∀ l ∈ a.keyedTerms.map KeyedTerm.key, isNegligible tolerance (total l) = true) :
      IsMergedSum tolerance total a (scale (.lit 0) x)

/-! Terms with equal keys -/

section

omit [RealScalar ρ] [Scalar κ ρ]

/-- Sorting keeps the order of the terms with one key. -/
theorem withKey_mergeSort (k : TermKey) (ts : List (KeyedTerm κ)) :
    withKey k (ts.mergeSort fun t u => t.key.le u.key) = withKey k ts := by
  have hequal : (withKey k ts).Pairwise fun t u => t.key.le u.key = true := by
    refine List.pairwise_of_forall_mem_list fun t ht u hu => ?_
    rw [withKey, List.mem_filter, decide_eq_true_eq] at ht hu
    rw [ht.2, hu.2]
    exact TermKey.le_iff.mpr (le_refl _)
  have hsub : (withKey k ts).Sublist (ts.mergeSort fun t u => t.key.le u.key) := by
    refine List.sublist_mergeSort ?_ ?_ hequal List.filter_sublist
    · exact fun _ _ _ => TermKey.transitive_le
    · exact fun t u => TermKey.total_le t.key u.key
  have hperm : (withKey k (ts.mergeSort fun t u => t.key.le u.key)).Perm (withKey k ts) :=
    (List.mergeSort_perm ts _).filter _
  have hfilter := hsub.filter (·.key = k)
  rw [withKey, List.filter_filter] at hfilter
  simp only [Bool.and_self] at hfilter
  exact (hfilter.eq_of_length hperm.length_eq.symm).symm

/-- Whether a term has what the terms with its key come to. -/
def Gathers (ts : List (KeyedTerm κ)) (u : KeyedTerm κ) : Prop :=
  firstChain? u.key ts = some u.chain ∧ coeffSum? u.key ts = some u.coeff

theorem exists_of_firstChain {k : TermKey} {ts : List (KeyedTerm κ)} {x : Operator κ}
    (h : firstChain? k ts = some x) : ∃ t ∈ ts, t.key = k ∧ t.chain = x := by
  obtain ⟨t, ht, hx⟩ := Option.map_eq_some_iff.mp h
  have hmem := List.mem_of_mem_head? ht
  rw [withKey, List.mem_filter, decide_eq_true_eq] at hmem
  exact ⟨t, hmem.1, hmem.2, hx⟩

theorem withKey_cons_of_ne {k : TermKey} {t : KeyedTerm κ} (h : t.key ≠ k)
    (ts : List (KeyedTerm κ)) : withKey k (t :: ts) = withKey k ts :=
  List.filter_cons_of_neg (by simpa using h)

theorem withKey_cons_of_eq {k : TermKey} {t : KeyedTerm κ} (h : t.key = k)
    (ts : List (KeyedTerm κ)) : withKey k (t :: ts) = t :: withKey k ts :=
  List.filter_cons_of_pos (by simpa using h)

/-- A term whose key no other one has is all that its key comes to. -/
theorem gathers_self {t : KeyedTerm κ} {ts : List (KeyedTerm κ)} (h : ∀ u ∈ ts, u.key ≠ t.key) :
    Gathers (t :: ts) t := by
  have hnone : withKey t.key ts = [] :=
    List.filter_eq_nil_iff.mpr fun u hu => by simpa using h u hu
  rw [Gathers, firstChain?, coeffSum?, withKey_cons_of_eq rfl, hnone]
  exact ⟨rfl, rfl⟩

/-- A term in front that has another key changes nothing. -/
theorem Gathers.cons {t u : KeyedTerm κ} {ts : List (KeyedTerm κ)} (h : Gathers ts u)
    (hne : t.key ≠ u.key) : Gathers (t :: ts) u := by
  rwa [Gathers, firstChain?, coeffSum?, withKey_cons_of_ne hne]

/-- Two terms with one key count as one, with the chain of the first. -/
theorem Gathers.of_merged {t v u : KeyedTerm κ} {ts : List (KeyedTerm κ)} (hkey : v.key = t.key)
    (h : Gathers ({ t with coeff := .add t.coeff v.coeff } :: ts) u) :
    Gathers (t :: v :: ts) u := by
  obtain ⟨hchain, hcoeff⟩ := h
  by_cases hu : t.key = u.key
  · rw [coeffSum?, withKey_cons_of_eq (by exact hu)] at hcoeff
    rw [firstChain?, withKey_cons_of_eq (by exact hu)] at hchain
    rw [Gathers, firstChain?, coeffSum?, withKey_cons_of_eq hu, withKey_cons_of_eq (hkey.trans hu)]
    exact ⟨hchain, hcoeff⟩
  · rw [coeffSum?, withKey_cons_of_ne (by exact hu)] at hcoeff
    rw [firstChain?, withKey_cons_of_ne (by exact hu)] at hchain
    exact Gathers.cons (Gathers.cons ⟨hchain, hcoeff⟩ fun hv => hu (hkey.symm.trans hv)) hu

/-- Of terms in order, none has the key of the first if the second has not. -/
theorem key_ne_of_pairwise {t v : KeyedTerm κ} {rest : List (KeyedTerm κ)}
    (h : (t :: v :: rest).Pairwise fun t u => t.key.le u.key = true) (hkey : v.key ≠ t.key) :
    ∀ w ∈ v :: rest, w.key ≠ t.key := by
  obtain ⟨ht, hrest⟩ := List.pairwise_cons.mp h
  have htv := TermKey.lt_iff.mp (TermKey.lt_of_le_ne (ht v List.mem_cons_self) hkey.symm)
  rw [List.forall_mem_cons]
  refine ⟨hkey, fun w hw heq => ?_⟩
  have hvw := TermKey.le_iff.mp ((List.pairwise_cons.mp hrest).1 w hw)
  exact absurd htv (not_lt.mpr (heq ▸ hvw))

/-- Of terms in order, merging leaves what those with each key come to. -/
theorem mergeKeyed_gathers {ts : List (KeyedTerm κ)}
    (h : ts.Pairwise fun t u => t.key.le u.key = true) : ∀ u ∈ mergeKeyed ts, Gathers ts u := by
  have go (rest : List (KeyedTerm κ)) : ∀ t,
      (t :: rest).Pairwise (fun t u => t.key.le u.key = true) →
        ∀ u ∈ mergeKeyed.go t rest, Gathers (t :: rest) u := by
    induction rest with
    | nil =>
      intro t _ u hu
      obtain rfl := List.mem_singleton.mp hu
      exact gathers_self (by simp)
    | cons v rest ih =>
      intro t hpairs u hu
      obtain ⟨ht, hrest⟩ := List.pairwise_cons.mp hpairs
      rw [mergeKeyed.go] at hu
      split at hu
      · rename_i hkey
        refine .of_merged hkey (ih _ ?_ u hu)
        rw [List.forall_mem_cons] at ht
        exact List.pairwise_cons.mpr ⟨ht.2, (List.pairwise_cons.mp hrest).2⟩
      · rename_i hkey
        have hlater := key_ne_of_pairwise hpairs hkey
        rcases List.mem_cons.mp hu with rfl | hu
        · exact gathers_self hlater
        · have hgathers := ih v hrest u hu
          obtain ⟨w, hw, hwu, -⟩ := exists_of_firstChain hgathers.1
          exact hgathers.cons fun heq => hlater w hw (hwu.trans heq.symm)
  cases ts with
  | nil => intro u hu; cases hu
  | cons t rest => exact go rest t h

theorem mem_keys_mergeKeyed {k : TermKey} (ts : List (KeyedTerm κ)) :
    k ∈ (mergeKeyed ts).map KeyedTerm.key ↔ k ∈ ts.map KeyedTerm.key := by
  have go (rest : List (KeyedTerm κ)) : ∀ t, k ∈ (mergeKeyed.go t rest).map KeyedTerm.key ↔
      k ∈ (t :: rest).map KeyedTerm.key := by
    induction rest with
    | nil => exact fun _ => Iff.rfl
    | cons u rest ih =>
      intro t
      rw [mergeKeyed.go]
      split
      · rename_i hkey
        rw [ih, List.map_cons, List.map_cons, List.map_cons, hkey]
        simp
      · rw [List.map_cons, List.mem_cons, ih]
        exact List.mem_cons.symm
  cases ts with
  | nil => exact Iff.rfl
  | cons t rest => exact go rest t

theorem mergedTerms_gathers (ts : List (KeyedTerm κ)) : ∀ u ∈ mergedTerms ts, Gathers ts u := by
  intro u hu
  have h := mergeKeyed_gathers (pairwise_sorted ts) u hu
  rwa [Gathers, firstChain?, coeffSum?, withKey_mergeSort] at h

theorem mem_keys_mergedTerms {k : TermKey} (ts : List (KeyedTerm κ)) :
    k ∈ (mergedTerms ts).map KeyedTerm.key ↔ k ∈ ts.map KeyedTerm.key := by
  rw [mergedTerms, mem_keys_mergeKeyed]
  exact ((List.mergeSort_perm ts _).map _).mem_iff

end

/-! The parts of terms -/

theorem keyed_eq (a : Operator κ) :
    ∃ c, a.keyed? = a.termKey?.map fun key => ⟨key, c, a.unscaled⟩ := by
  cases a with
  | scale c x => exact ⟨c, rfl⟩
  | spin | mode | bin => exact ⟨.lit 1, rfl⟩

theorem keyed_eq_some {a : Operator κ} {t : KeyedTerm κ} (h : a.keyed? = some t) :
    a.termKey? = some t.key ∧ t.chain = a.unscaled := by
  obtain ⟨c, hc⟩ := keyed_eq a
  obtain ⟨key, hkey, rfl⟩ := Option.map_eq_some_iff.mp (hc.symm.trans h)
  exact ⟨hkey, rfl⟩

/-- The parts of the terms of a sum, if all have a key. -/
theorem mapM_keyed_of_keys {a : Operator κ} (h : ∀ t ∈ a.terms, t.termKey?.isSome = true) :
    a.terms.mapM keyed? = some a.keyedTerms := by
  rw [mapM_eq_some, keyedTerms]
  generalize a.terms = ts at h ⊢
  induction ts with
  | nil => exact .nil
  | cons t ts ih =>
    rw [List.forall_mem_cons] at h
    obtain ⟨c, hc⟩ := keyed_eq t
    obtain ⟨key, hkey⟩ := Option.isSome_iff_exists.mp h.1
    rw [hkey] at hc
    rw [List.filterMap_cons_some hc]
    exact .cons hc (ih h.2)

theorem keyedTerms_ne_nil {a : Operator κ} (h : ∀ t ∈ a.terms, t.termKey?.isSome = true) :
    a.keyedTerms ≠ [] := by
  intro hnil
  have hall := mapM_eq_some.mp (hnil ▸ mapM_keyed_of_keys h)
  exact operands_ne_nil .add a (List.forall₂_nil_right_iff.mp hall)

/-- The first chain with a key has that key. -/
theorem key_of_firstChain {a : Operator κ} {k : TermKey} {x : Operator κ}
    (h : firstChain? k a.keyedTerms = some x) : x.kronFactors.mapM factorKey? = some k := by
  obtain ⟨t, ht, rfl, rfl⟩ := exists_of_firstChain h
  obtain ⟨y, -, hy⟩ := List.mem_filterMap.mp ht
  obtain ⟨hkey, hchain⟩ := keyed_eq_some hy
  rwa [termKey?, ← hchain] at hkey

/-! What sorting leaves -/

section

variable [OrderKey κ] {s : Settings ρ} {total : TermKey → Coeff κ}

/-- The merged terms with the totals of their keys. -/
def withTotals (total : TermKey → Coeff κ) (ts : List (KeyedTerm κ)) : List (KeyedTerm κ) :=
  ts.map fun t => { t with coeff := total t.key }

theorem sortedTerms_of_total {ts : List (KeyedTerm κ)}
    (htotal : ∀ k c, coeffSum? k ts = some c → c.normalize s = .ok (total k)) :
    sortedTerms s ts = .ok (withTotals total (mergedTerms ts)) := by
  change (mergedTerms ts).mapM _ = _
  rw [mapM_eq_ok, withTotals, List.forall₂_map_right_iff, List.forall₂_same]
  intro t ht
  exact bind_eq_ok.mpr ⟨total t.key, htotal _ _ (mergedTerms_gathers ts t ht).2, rfl⟩

omit [OrderKey κ] in
/-- Those whose total is not negligible are the merged terms of a sum. -/
theorem areMerged_kept (tolerance : ρ) (total : TermKey → Coeff κ) (a : Operator κ) :
    AreMerged tolerance total a ((withTotals total (mergedTerms a.keyedTerms)).filter
      fun t => !isNegligible tolerance t.coeff) := by
  have hkeys : (withTotals total (mergedTerms a.keyedTerms)).map KeyedTerm.key =
      (mergedTerms a.keyedTerms).map KeyedTerm.key := by
    rw [withTotals, List.map_map]
    rfl
  refine ⟨?_, fun t ht => ?_, fun t ht => ?_, fun k => ?_⟩
  · exact (mergedTerms_increasing a.keyedTerms).sublist (hkeys ▸ List.filter_sublist.map _)
  · obtain ⟨u, hu, rfl⟩ := List.mem_map.mp (List.mem_of_mem_filter ht)
    exact (mergedTerms_gathers _ u hu).1
  · obtain ⟨u, -, rfl⟩ := List.mem_map.mp (List.mem_of_mem_filter ht)
    rfl
  · rw [← mem_keys_mergedTerms a.keyedTerms]
    constructor
    · intro hk
      obtain ⟨v, hv, rfl⟩ := List.mem_map.mp hk
      obtain ⟨hv, hlarge⟩ := List.mem_filter.mp hv
      obtain ⟨u, hu, rfl⟩ := List.mem_map.mp hv
      exact ⟨List.mem_map.mpr ⟨u, hu, rfl⟩, by simpa using hlarge⟩
    · rintro ⟨hk, hlarge⟩
      obtain ⟨u, hu, rfl⟩ := List.mem_map.mp hk
      refine List.mem_map.mpr ⟨{ u with coeff := total u.key }, ?_, rfl⟩
      exact List.mem_filter.mpr ⟨List.mem_map_of_mem hu, by simp [hlarge]⟩

omit [OrderKey κ] in
theorem exists_mergedSum (tolerance : ρ) (total : TermKey → Coeff κ) {a : Operator κ}
    (hne : a.keyedTerms ≠ []) :
    ∃ b, sumOfKeyed? tolerance (withTotals total (mergedTerms a.keyedTerms)) = some b ∧
      IsMergedSum tolerance total a b := by
  have hkept := areMerged_kept tolerance total a
  unfold sumOfKeyed?
  dsimp only
  split
  · rename_i b hb
    exact ⟨b, rfl, .kept hkept hb⟩
  · rename_i hnone
    have hnil := List.map_eq_nil_iff.mp ((leftNested?_eq_none_iff _ _).mp hnone)
    have hcancel (l : TermKey) (hl : l ∈ a.keyedTerms.map KeyedTerm.key) :
        isNegligible tolerance (total l) = true := by
      by_contra hlarge
      have hmem := (hkept.complete l).mpr ⟨hl, by simpa using hlarge⟩
      rw [hnil] at hmem
      cases hmem
    cases hms : mergedTerms a.keyedTerms with
    | nil => exact absurd hms (mergedTerms_ne_nil hne)
    | cons m rest =>
      have hm : m ∈ mergedTerms a.keyedTerms := hms ▸ List.mem_cons_self
      refine ⟨_, rfl, .cancelled (mergedTerms_gathers _ m hm).1 (fun l hl => ?_) hcancel⟩
      -- the first merged term has the least key
      have hinc := hms ▸ mergedTerms_increasing a.keyedTerms
      rw [← mem_keys_mergedTerms, hms] at hl
      rcases List.mem_cons.mp hl with rfl | hl
      · exact TermKey.le_iff.mpr (le_refl _)
      · have hlt := (List.pairwise_cons.mp hinc).1 l hl
        exact TermKey.le_iff.mpr (le_of_lt (TermKey.lt_iff.mp hlt))

omit [OrderKey κ] in
/-- The totals and the first chains determine the terms that are left. -/
theorem AreMerged.unique {tolerance : ρ} {a : Operator κ} {ts us : List (KeyedTerm κ)}
    (h : AreMerged tolerance total a ts) (h' : AreMerged tolerance total a us) : ts = us := by
  have hkeys : ts.map KeyedTerm.key = us.map KeyedTerm.key := by
    refine List.Perm.eq_of_pairwise (fun k l _ _ hkl hlk => ?_) h.increasing h'.increasing ?_
    · exact absurd (TermKey.lt_iff.mp hkl) (lt_asymm (TermKey.lt_iff.mp hlk))
    · refine (List.perm_ext_iff_of_nodup (nodup_of_increasing h.increasing)
        (nodup_of_increasing h'.increasing)).mpr fun k => ?_
      rw [h.complete, h'.complete]
  -- a term is determined by its key
  have hparts {vs : List (KeyedTerm κ)} (hvs : AreMerged tolerance total a vs) :
      vs.map some = (vs.map KeyedTerm.key).map fun k =>
        (firstChain? k a.keyedTerms).map fun x => ⟨k, total k, x⟩ := by
    rw [List.map_map]
    refine List.map_congr_left fun v hv => ?_
    rw [Function.comp_apply, hvs.chain v hv, ← hvs.coeff v hv]
    rfl
  refine List.map_injective_iff.mpr (Option.some_injective _) ?_
  rw [hparts h, hparts h', hkeys]

namespace IsMergedSum

variable {tolerance : ρ} {a b d : Operator κ}

omit [OrderKey κ] in
/-- Unless all totals are negligible there is a term left. -/
theorem not_cancelled {ts : List (KeyedTerm κ)} (h : AreMerged tolerance total a ts)
    (hsum : sum? (ts.map KeyedTerm.operator) = some b) :
    ¬ ∀ l ∈ a.keyedTerms.map KeyedTerm.key, isNegligible tolerance (total l) = true := by
  intro hcancel
  cases ts with
  | nil => cases hsum
  | cons t ts =>
    obtain ⟨hmem, hlarge⟩ := (h.complete t.key).mp List.mem_cons_self
    cases hlarge.symm.trans (hcancel _ hmem)

omit [OrderKey κ] in
theorem unique (h : IsMergedSum tolerance total a b) (h' : IsMergedSum tolerance total a d) :
    b = d := by
  cases h with
  | kept hmerged hsum =>
    cases h' with
    | kept hmerged' hsum' =>
      rw [hmerged.unique hmerged', hsum'] at hsum
      exact (Option.some.inj hsum).symm
    | cancelled _ _ hcancel => exact absurd hcancel (not_cancelled hmerged hsum)
  | @cancelled k x hchain hleast hcancel =>
    cases h' with
    | kept hmerged hsum => exact absurd hcancel (not_cancelled hmerged hsum)
    | @cancelled l y hchain' hleast' =>
      have hmem {k : TermKey} {x : Operator κ} (h : firstChain? k a.keyedTerms = some x) :
          k ∈ a.keyedTerms.map KeyedTerm.key := by
        obtain ⟨t, ht, rfl, -⟩ := exists_of_firstChain h
        exact List.mem_map_of_mem ht
      obtain rfl : k = l := by
        by_contra hne
        have hlt := TermKey.lt_iff.mp (TermKey.lt_of_le_ne (hleast l (hmem hchain')) hne)
        exact absurd hlt (not_lt.mpr (TermKey.le_iff.mp (hleast' k (hmem hchain))))
      rw [Option.some.inj (hchain.symm.trans hchain')]

omit [OrderKey κ] in
/-- What is left is a sum, or a chain with a coefficient. -/
theorem cases_on_sum (h : IsMergedSum tolerance total a b) :
    b.isSum = true ∨ ∃ c x, b = scale c x ∧ x.AllNodes fun y => y.isSum = false := by
  have hfree {k : TermKey} {x : Operator κ} (hx : firstChain? k a.keyedTerms = some x) :
      x.AllNodes fun y => y.isSum = false :=
    (isChain_of_key (key_of_firstChain hx)).isProduct.sumFree
  cases h with
  | cancelled hchain => exact .inr ⟨_, _, rfl, hfree hchain⟩
  | @kept ts _ hmerged hsum =>
    rcases List.eq_nil_or_concat ts with rfl | ⟨ts, t, rfl⟩
    · cases hsum
    · rw [List.concat_eq_append, List.map_append, List.map_singleton] at hsum
      rcases leftNested?_append_eq_some.mp hsum with ⟨-, rfl⟩ | ⟨y, -, rfl⟩
      · exact .inr ⟨_, _, rfl, hfree (hmerged.chain t (by simp))⟩
      · exact .inl rfl

/-- Sorting what is left changes nothing if the totals are their own normal forms. -/
theorem sortTerms_self (h : IsMergedSum s.tolerance total a b)
    (htotal : ∀ k ∈ a.keyedTerms.map KeyedTerm.key, isNegligible s.tolerance (total k) = false →
      (total k).normalize s = .ok (total k)) : b.sortTerms s = .ok b := by
  cases h with
  | cancelled => exact sortTerms_of_not_sum rfl
  | @kept ts _ hmerged hsum =>
    have hkey (t : KeyedTerm κ) (ht : t ∈ ts) :=
      (hmerged.complete t.key).mp (List.mem_map_of_mem ht)
    refine sortTerms_of_keyed hsum ?_ hmerged.increasing (fun t ht => ?_) fun t ht => ?_
    · rw [terms_of_sum hsum, mapM_eq_some, List.forall₂_map_left_iff, List.forall₂_same]
      exact fun t ht => congrArg (Option.map _) (key_of_firstChain (hmerged.chain t ht))
    · rw [hmerged.coeff t ht]
      exact htotal _ (hkey t ht).1 (hkey t ht).2
    · rw [hmerged.coeff t ht]
      exact (hkey t ht).2

end IsMergedSum

/--
Sorting a sum of terms with keys leaves each key whose total is not negligible once, in order, where
the total is the normal form of what the coefficients of its terms add up to. A sum that tests equal
to this stays as it is. Sorting again changes nothing if the totals are their own normal forms.
-/
theorem sortTerms_merges {a : Operator κ} (hsum : a.isSum = true)
    (hkeys : ∀ t ∈ a.terms, t.termKey?.isSome = true)
    (htotal : ∀ k c, coeffSum? k a.keyedTerms = some c → c.normalize s = .ok (total k)) :
    ∃ b c, IsMergedSum s.tolerance total a b ∧ (c = b ∨ c = a ∧ (b == a) = true) ∧
      a.sortTerms s = .ok c ∧ walk .pre (sortTermsRule (κ := κ) s) a = .ok c ∧
      ((∀ k ∈ a.keyedTerms.map KeyedTerm.key, isNegligible s.tolerance (total k) = false →
          (total k).normalize s = .ok (total k)) →
        c.sortTerms s = .ok c ∧ walk .pre (sortTermsRule (κ := κ) s) c = .ok c) := by
  obtain ⟨b, hb, hmerged⟩ := exists_mergedSum s.tolerance total (keyedTerms_ne_nil hkeys)
  have hsort : a.sortTerms s = .ok (if b == a then a else b) := by
    obtain ⟨x, y, rfl⟩ := isSum_iff.mp hsum
    simp only [sortTerms, mapM_keyed_of_keys hkeys, sortedTerms_of_total htotal, ok_bind, hb,
      Option.getD_some]
    rfl
  by_cases hbeq : (b == a) = true
  · rw [if_pos hbeq] at hsort
    have hwalk := walk_sortTerms_once hsort (.inl hsum)
    exact ⟨b, a, hmerged, .inr ⟨rfl, hbeq⟩, hsort, hwalk, fun _ => ⟨hsort, hwalk⟩⟩
  · rw [if_neg hbeq] at hsort
    refine ⟨b, b, hmerged, .inl rfl, hsort, walk_sortTerms_once hsort hmerged.cases_on_sum,
      fun hnormal => ?_⟩
    have hagain := hmerged.sortTerms_self hnormal
    exact ⟨hagain, walk_sortTerms_once hagain hmerged.cases_on_sum⟩

end

/-- One term, and then another one that comes before it in order, with a coefficient and without. -/
noncomputable def outOfOrder : Operator ClosedNumber :=
  add (add (scale (.lit 1) (pauli .z)) (scale (.lit 1) (pauli .x))) (pauli .x)

/-- The two terms with one key are merged and come first. -/
theorem sortTerms_merges_three : ∃ s : Settings ClosedReal,
    outOfOrder.sortTerms s =
      .ok (add (scale (.lit (1 + 1)) (pauli .x)) (scale (.lit 1) (pauli .z))) := by
  have hvalue : (Coeff.add (.lit 1) (.lit 1) : Coeff ClosedNumber).value Coeff.noBindings =
      .ok (1 + 1) :=
    Coeff.value_bin_iff.mpr ⟨Coeff.defined_lit 1, Coeff.defined_lit 1, rfl⟩
  have hdefined : (Coeff.add (.lit 1) (.lit 1) : Coeff ClosedNumber).Defined Coeff.noBindings :=
    ⟨_, hvalue⟩
  obtain ⟨_, -, hnormal⟩ := Coeff.exists_normal (⟨0, 0⟩ : Settings ClosedReal) hdefined.readable
  obtain ⟨cap, -, hset⟩ := hnormal.exists
  obtain ⟨n, hn, -, hlit⟩ :=
    Coeff.normalize_value (s := (⟨0, 0⟩ : Settings ClosedReal).capped cap) rfl hvalue
  obtain rfl := hlit ⟨trivial, trivial, trivial⟩ hset
  generalize hs : (⟨0, 0⟩ : Settings ClosedReal).capped cap = s at hn
  have hone := Coeff.normalize_of_inNormalForm (s := s)
    (Coeff.inNormalForm_lit _ (1 : ClosedNumber)) (beq_self_eq_true _)
  have htolerance : s.tolerance = 0 := hs ▸ rfl
  have hterms : outOfOrder.keyedTerms = [⟨[.pauli .z], .lit 1, pauli .z⟩,
      ⟨[.pauli .x], .lit 1, pauli .x⟩, ⟨[.pauli .x], .lit 1, pauli .x⟩] := rfl
  let total (k : TermKey) : Coeff ClosedNumber := if k = [.pauli .x] then .lit (1 + 1) else .lit 1
  have htotal (k : TermKey) (c : Coeff ClosedNumber)
      (h : coeffSum? k outOfOrder.keyedTerms = some c) : c.normalize s = .ok (total k) := by
    rw [hterms] at h
    by_cases hx : k = [.pauli .x]
    · subst hx
      cases h
      exact hn
    · by_cases hz : k = [.pauli .z]
      · subst hz
        cases h
        exact hone
      · simp [coeffSum?, withKey, Ne.symm hx, Ne.symm hz] at h
  obtain ⟨b, c, hb, hc, hsort, -⟩ := sortTerms_merges (a := outOfOrder) rfl
    (by simp [outOfOrder, terms, operands, operandsBefore, termKey?, unscaled, factorKey?]) htotal
  have hlarge (k : TermKey) : isNegligible s.tolerance (total k) = false := by
    have htwo : (1 + 1 : ClosedNumber) ≠ 0 := by
      intro h
      have h : (1 + 1 : ℂ) = 0 := congrArg Subtype.val h
      norm_num at h
    rw [htolerance, ← Bool.not_eq_true]
    by_cases hx : k = [.pauli .x]
    · simpa [total, hx, isNegligible, ExactRing.isNegligible_zero] using htwo
    · simp [total, hx, isNegligible, ExactRing.isNegligible_zero]
  have hmerged : AreMerged s.tolerance total outOfOrder
      [⟨[.pauli .x], .lit (1 + 1), pauli .x⟩, ⟨[.pauli .z], .lit 1, pauli .z⟩] := by
    refine ⟨?_, ?_, ?_, fun k => ?_⟩
    · rw [Increasing]
      decide
    · simp [hterms, firstChain?, withKey]
    · simp [total]
    · simp [hterms, hlarge, or_comm]
  obtain rfl := hb.unique (.kept hmerged rfl)
  rcases hc with rfl | ⟨rfl, hbeq⟩
  · exact ⟨s, hsort⟩
  · cases eq_of_beq hbeq

end SpinBoson.Operator
