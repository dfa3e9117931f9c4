import SpinBoson.Canonical.SortedTerms
import SpinBoson.Proofs.Coeff.NormalForm
import SpinBoson.Proofs.Operator.Coefficients
import SpinBoson.Proofs.Operator.Keys

/-!
Sums of scaled terms with keys in normal form: sorting and merging leads to keys that increase from
term to term.
-/
namespace SpinBoson.Operator

variable {κ ρ : Type} [RealScalar ρ] [Scalar κ ρ]

namespace KeyedTerm

section

omit [RealScalar ρ] [Scalar κ ρ]

/-- The term that the parts make up. -/
def operator (t : KeyedTerm κ) : Operator κ :=
  .scale t.coeff t.chain

/-- Whether the chain of a term is the one that its key stands for, and the key in normal form. -/
def IsNormal (s : Signature) (t : KeyedTerm κ) : Prop :=
  t.key.IsNormal s ∧ t.key.chain? = some t.chain

theorem IsNormal.arranged {s : Signature} {t : KeyedTerm κ} (h : t.IsNormal s) :
    t.chain.IsArranged Operator.IsNormalWord s :=
  isArranged_iff_key.mpr ⟨t.key, h⟩

theorem IsNormal.isChain {s : Signature} {t : KeyedTerm κ} (h : t.IsNormal s) : t.chain.IsChain :=
  h.arranged.isChain fun _ hw => hw.isWord

theorem IsNormal.termKey {s : Signature} {t : KeyedTerm κ} (h : t.IsNormal s) :
    t.operator.termKey? = some t.key :=
  key_of_chain h.1.word_nil_notMem h.2

end

theorem IsNormal.keyed {s : Signature} {t : KeyedTerm κ} (h : t.IsNormal s) :
    t.operator.keyed? = some t := by
  rw [operator, keyed?, ← operator, h.termKey]
  rfl

end KeyedTerm

/-- Whether keys increase from term to term. -/
def Increasing (ts : List (KeyedTerm κ)) : Prop :=
  (ts.map KeyedTerm.key).Pairwise fun k l => k.lt l = true

omit [RealScalar ρ] [Scalar κ ρ] in
theorem nodup_of_increasing {ts : List (KeyedTerm κ)} (h : Increasing ts) :
    (ts.map KeyedTerm.key).Nodup := by
  refine List.Pairwise.imp ?_ h
  rintro k _ hlt rfl
  exact lt_irrefl _ (TermKey.lt_iff.mp hlt)

/-! Merging -/

section

omit [RealScalar ρ] [Scalar κ ρ]

/-- What holds of terms and of two of them merged holds of all that merging leaves. -/
theorem mergeKeyed_forall {R : KeyedTerm κ → Prop}
    (hR : ∀ t u, R t → R u → R { t with coeff := .add t.coeff u.coeff })
    {ts : List (KeyedTerm κ)} (hts : ∀ t ∈ ts, R t) : ∀ t ∈ mergeKeyed ts, R t := by
  have go (rest : List (KeyedTerm κ)) : ∀ t, R t → (∀ u ∈ rest, R u) →
      ∀ u ∈ mergeKeyed.go t rest, R u := by
    induction rest with
    | nil => simp [mergeKeyed.go]
    | cons u rest ih =>
      intro t ht hrest
      rw [List.forall_mem_cons] at hrest
      unfold mergeKeyed.go
      split
      · exact ih _ (hR t u ht hrest.1) hrest.2
      · exact List.forall_mem_cons.mpr ⟨ht, ih u hrest.1 hrest.2⟩
  cases ts with
  | nil => exact hts
  | cons t rest =>
    rw [List.forall_mem_cons] at hts
    exact go rest t hts.1 hts.2

theorem mergeKeyed_ne_nil {ts : List (KeyedTerm κ)} (h : ts ≠ []) : mergeKeyed ts ≠ [] := by
  have go (rest : List (KeyedTerm κ)) : ∀ t, mergeKeyed.go t rest ≠ [] := by
    induction rest with
    | nil => simp [mergeKeyed.go]
    | cons u rest ih =>
      intro t
      unfold mergeKeyed.go
      split
      · exact ih _
      · simp
  cases ts with
  | nil => exact absurd rfl h
  | cons t rest => exact go rest t

/-- Of terms in order, merging leaves each key once. -/
theorem mergeKeyed_increasing {ts : List (KeyedTerm κ)}
    (h : ts.Pairwise fun t u => t.key.le u.key = true) : Increasing (mergeKeyed ts) := by
  have go (rest : List (KeyedTerm κ)) : ∀ t,
      (t :: rest).Pairwise (fun t u => t.key.le u.key = true) →
      (mergeKeyed.go t rest).Pairwise (fun t u => t.key.lt u.key = true) ∧
        ∀ u ∈ mergeKeyed.go t rest, t.key.le u.key = true := by
    induction rest with
    | nil =>
      intro t _
      have hself : t.key.le t.key = true := TermKey.le_iff.mpr (le_refl _)
      simp [mergeKeyed.go, hself]
    | cons u rest ih =>
      intro t hpairs
      obtain ⟨ht, hrest⟩ := List.pairwise_cons.mp hpairs
      rw [List.forall_mem_cons] at ht
      unfold mergeKeyed.go
      split
      · exact ih _ (List.pairwise_cons.mpr ⟨ht.2, (List.pairwise_cons.mp hrest).2⟩)
      · rename_i hne
        obtain ⟨hinc, hle⟩ := ih u hrest
        refine ⟨List.pairwise_cons.mpr ⟨fun v hv => ?_, hinc⟩, ?_⟩
        · have htu := TermKey.lt_iff.mp (TermKey.lt_of_le_ne ht.1 fun heq => hne heq.symm)
          exact TermKey.lt_iff.mpr (lt_of_lt_of_le htu (TermKey.le_iff.mp (hle v hv)))
        · refine List.forall_mem_cons.mpr ⟨TermKey.le_iff.mpr (le_refl _), fun v hv => ?_⟩
          exact TermKey.transitive_le ht.1 (hle v hv)
  rw [Increasing, List.pairwise_map]
  cases ts with
  | nil => exact List.Pairwise.nil
  | cons t rest => exact (go rest t h).1

/-- The terms in order, those with equal keys merged. -/
def mergedTerms (ts : List (KeyedTerm κ)) : List (KeyedTerm κ) :=
  mergeKeyed (ts.mergeSort fun t u => t.key.le u.key)

theorem pairwise_sorted (ts : List (KeyedTerm κ)) :
    (ts.mergeSort fun t u => t.key.le u.key).Pairwise fun t u => t.key.le u.key = true := by
  refine List.pairwise_mergeSort ?_ ?_ ts
  · exact fun _ _ _ => TermKey.transitive_le
  · exact fun t u => TermKey.total_le t.key u.key

theorem mergedTerms_increasing (ts : List (KeyedTerm κ)) : Increasing (mergedTerms ts) :=
  mergeKeyed_increasing (pairwise_sorted ts)

/-- Terms with increasing keys are in order, and none of them are merged. -/
theorem mergedTerms_of_increasing {ts : List (KeyedTerm κ)} (h : Increasing ts) :
    mergedTerms ts = ts := by
  rw [Increasing, List.pairwise_map] at h
  have go (rest : List (KeyedTerm κ)) : ∀ t,
      (t :: rest).Pairwise (fun t u => t.key.lt u.key = true) → mergeKeyed.go t rest = t :: rest := by
    induction rest with
    | nil => simp [mergeKeyed.go]
    | cons u rest ih =>
      intro t hpairs
      obtain ⟨ht, hrest⟩ := List.pairwise_cons.mp hpairs
      have hne : u.key ≠ t.key := by
        intro heq
        have hlt := TermKey.lt_iff.mp (ht u List.mem_cons_self)
        rw [heq] at hlt
        exact lt_irrefl _ hlt
      rw [mergeKeyed.go, if_neg hne, ih u hrest]
  have hsorted : ts.mergeSort (fun t u => t.key.le u.key) = ts := by
    refine List.mergeSort_of_pairwise (h.imp fun hlt => ?_)
    exact TermKey.le_iff.mpr (le_of_lt (TermKey.lt_iff.mp hlt))
  rw [mergedTerms, hsorted]
  cases ts with
  | nil => rfl
  | cons t rest => exact go rest t h

theorem mergedTerms_forall {R : KeyedTerm κ → Prop}
    (hR : ∀ t u, R t → R u → R { t with coeff := .add t.coeff u.coeff })
    {ts : List (KeyedTerm κ)} (hts : ∀ t ∈ ts, R t) : ∀ t ∈ mergedTerms ts, R t :=
  mergeKeyed_forall hR fun t ht => hts t ((List.mergeSort_perm ts _).mem_iff.mp ht)

theorem mergedTerms_ne_nil {ts : List (KeyedTerm κ)} (h : ts ≠ []) : mergedTerms ts ≠ [] := by
  refine mergeKeyed_ne_nil fun hnil => h ?_
  have hperm := List.mergeSort_perm ts fun t u => t.key.le u.key
  rw [hnil] at hperm
  exact hperm.nil_eq.symm

/-! Sums of terms -/

/-- Sums, however associated, of scaled chains with keys in normal form. -/
def IsTermSum (s : Signature) (a : Operator κ) : Prop :=
  ∃ ts : List (KeyedTerm κ), a.terms = ts.map KeyedTerm.operator ∧ ∀ t ∈ ts, t.IsNormal s

/-- Left-nested sums of scaled chains with keys that increase from term to term. -/
def IsIncreasingSum (s : Signature) (a : Operator κ) : Prop :=
  ∃ ts : List (KeyedTerm κ), sum? (ts.map KeyedTerm.operator) = some a ∧ Increasing ts ∧
    ∀ t ∈ ts, t.IsNormal s

theorem terms_of_sum {ts : List (KeyedTerm κ)} {a : Operator κ}
    (h : sum? (ts.map KeyedTerm.operator) = some a) : a.terms = ts.map KeyedTerm.operator := by
  refine operands_of_leftNested (fun x hx => ?_) h
  obtain ⟨t, _, rfl⟩ := List.mem_map.mp hx
  rfl

theorem IsIncreasingSum.isTermSum {s : Signature} {a : Operator κ} (h : a.IsIncreasingSum s) :
    a.IsTermSum s := by
  obtain ⟨ts, hsum, _, hts⟩ := h
  exact ⟨ts, terms_of_sum hsum, hts⟩

/-- A term sum is a sum or a single term. -/
theorem IsTermSum.cases {s : Signature} {a : Operator κ} (h : a.IsTermSum s) :
    a.isSum = true ∨ ∃ t : KeyedTerm κ, t.IsNormal s ∧ a = t.operator := by
  obtain ⟨ts, hterms, hts⟩ := h
  have single (hop : a.operands .add = [a]) : ∃ t : KeyedTerm κ, t.IsNormal s ∧ a = t.operator := by
    rw [terms, hop] at hterms
    match ts with
    | [t] => exact ⟨t, hts t (by simp), (List.cons.inj hterms).1⟩
  cases a with
  | bin op x y =>
    cases op with
    | add => exact .inl rfl
    | sub | mul | kron => exact .inr (single rfl)
  | spin | mode | scale => exact .inr (single rfl)

/-! Coefficients of terms -/

theorem coeffsAll_of_product {Q : Coeff κ → Prop} {a : Operator κ} (h : a.IsProduct) :
    a.CoeffsAll Q := by
  induction h with
  | pauli | mode => simp
  | mul _ _ iha ihb | kron _ _ iha ihb => exact coeffsAll_bin.mpr ⟨iha, ihb⟩

theorem IsProduct.beq_self [BEq κ] {a : Operator κ} (h : a.IsProduct) : (a == a) = true :=
  beq_self_of_coeffs (coeffsAll_of_product h)

theorem coeffsAll_terms {Q : Coeff κ → Prop} {a : Operator κ} :
    a.CoeffsAll Q ↔ ∀ t ∈ a.terms, t.CoeffsAll Q :=
  coeffsAll_iff_operands .add a

/-- The coefficients of a sum of keyed terms are those in front of the terms. -/
theorem coeffsAll_keyed {Q : Coeff κ → Prop} {s : Signature} {ts : List (KeyedTerm κ)}
    (hts : ∀ t ∈ ts, t.IsNormal s) {a : Operator κ}
    (h : a.terms = ts.map KeyedTerm.operator) : a.CoeffsAll Q ↔ ∀ t ∈ ts, Q t.coeff := by
  rw [coeffsAll_terms, h, List.forall_mem_map]
  refine forall₂_congr fun t ht => ?_
  rw [KeyedTerm.operator, coeffsAll_scale]
  exact and_iff_left (coeffsAll_of_product (hts t ht).isChain.isProduct)

end

/-! What tests equal -/

section

omit [RealScalar ρ] [Scalar κ ρ]

variable [BEq κ]

theorem IsProduct.eq_of_beq {a b : Operator κ} (h : a.IsProduct) (hbeq : (a == b) = true) :
    a = b := by
  induction h generalizing b with
  | pauli p => exact (spin_beq.mp hbeq).symm
  | mode l => exact (mode_beq.mp hbeq).symm
  | mul _ _ iha ihb | kron _ _ iha ihb =>
    obtain ⟨a', b', rfl, ha, hb⟩ := bin_beq.mp hbeq
    rw [iha ha, ihb hb]

theorem sum_of_beq {xs : List (Operator κ)} {a b : Operator κ} (h : sum? xs = some b)
    (hbeq : (b == a) = true) :
    ∃ ys, sum? ys = some a ∧ List.Forall₂ (fun x y => (x == y) = true) xs ys := by
  induction h using leftNested?_induction generalizing a with
  | single x => exact ⟨[a], rfl, .cons hbeq .nil⟩
  | append xs z x _ ih =>
    obtain ⟨z', x', rfl, hz, hx⟩ := bin_beq.mp hbeq
    obtain ⟨ys, hys, hall⟩ := ih hz
    exact ⟨ys ++ [x'], leftNested?_append_eq_some.mpr (.inr ⟨z', hys, rfl⟩),
      List.rel_append hall (.cons hx .nil)⟩

/-- What tests equal to a sum of terms is a sum of terms with the same chains. -/
theorem keyed_of_beq {s : Signature} {ts : List (KeyedTerm κ)} (hts : ∀ t ∈ ts, t.IsNormal s)
    {a b : Operator κ} (hsum : sum? (ts.map KeyedTerm.operator) = some b) (hbeq : (b == a) = true) :
    ∃ us, sum? (us.map KeyedTerm.operator) = some a ∧
      List.Forall₂ (fun t u : KeyedTerm κ => u.key = t.key ∧ u.chain = t.chain ∧
        (t.coeff == u.coeff) = true) ts us := by
  obtain ⟨ys, hys, hall⟩ := sum_of_beq hsum hbeq
  have hparts : ∃ us : List (KeyedTerm κ), ys = us.map KeyedTerm.operator ∧
      List.Forall₂ (fun t u : KeyedTerm κ => u.key = t.key ∧ u.chain = t.chain ∧
        (t.coeff == u.coeff) = true) ts us := by
    clear hsum hys
    induction ts generalizing ys with
    | nil =>
      cases hall
      exact ⟨[], rfl, .nil⟩
    | cons t ts ih =>
      rw [List.forall_mem_cons] at hts
      cases hall with
      | cons ht hrest =>
        obtain ⟨us, rfl, hus⟩ := ih hts.2 _ hrest
        obtain ⟨c, x, rfl, hc, hx⟩ := scale_beq.mp ht
        obtain rfl := hts.1.isChain.isProduct.eq_of_beq hx
        exact ⟨{ t with coeff := c } :: us, rfl, .cons ⟨rfl, rfl, hc⟩ hus⟩
  obtain ⟨us, rfl, hus⟩ := hparts
  exact ⟨us, hys, hus⟩

omit [BEq κ] in
/-- Terms with the keys and chains of others are increasing and normal if those are. -/
theorem keys_of_forall₂ {R : KeyedTerm κ → KeyedTerm κ → Prop} {ts us : List (KeyedTerm κ)}
    (hR : ∀ t u, R t u → u.key = t.key ∧ u.chain = t.chain) (h : List.Forall₂ R ts us) :
    us.map KeyedTerm.key = ts.map KeyedTerm.key ∧
      ∀ s, (∀ t ∈ ts, t.IsNormal s) → ∀ u ∈ us, u.IsNormal s := by
  constructor
  · induction h with
    | nil => rfl
    | cons h _ ih => rw [List.map_cons, List.map_cons, (hR _ _ h).1, ih]
  · intro s hts u hu
    obtain ⟨t, ht, htu⟩ := exists_of_forall₂ h hu
    obtain ⟨hkey, hchain⟩ := hR t u htu
    rw [KeyedTerm.IsNormal, hkey, hchain]
    exact hts t ht

end

/-! Sorting -/

theorem readable_hereditary : Coeff.Hereditary (Coeff.Readable (κ := κ)) where
  lit z := (Coeff.textFree_lit z).readable
  bin hc hd := ⟨by simp, hc, hd⟩

theorem exists_sumOfKeyed (tolerance : ρ) {s : Signature} {Q : Coeff κ → Prop} (hQ : Q (.lit 0))
    {ts : List (KeyedTerm κ)} (hne : ts ≠ []) (hinc : Increasing ts)
    (hts : ∀ t ∈ ts, t.IsNormal s ∧ Q t.coeff) :
    ∃ b, sumOfKeyed? tolerance ts = some b ∧ b.IsIncreasingSum s ∧ b.CoeffsAll Q ∧
      (b.isSum = true → b.CoeffsAll fun c => isNegligible tolerance c = false) := by
  have result {us : List (KeyedTerm κ)} {b : Operator κ} {R : Coeff κ → Prop}
      (hus : ∀ t ∈ us, t.IsNormal s ∧ R t.coeff)
      (hb : sum? (us.map KeyedTerm.operator) = some b) : b.CoeffsAll R :=
    (coeffsAll_keyed (fun t ht => (hus t ht).1) (terms_of_sum hb)).mpr fun t ht => (hus t ht).2
  unfold sumOfKeyed?
  dsimp only
  split
  · rename_i b hb
    have hkept : ∀ t ∈ ts.filter fun t => !isNegligible tolerance t.coeff,
        t.IsNormal s ∧ Q t.coeff ∧ isNegligible tolerance t.coeff = false := by
      intro t ht
      obtain ⟨ht, hlarge⟩ := List.mem_filter.mp ht
      exact ⟨(hts t ht).1, (hts t ht).2, by simpa using hlarge⟩
    refine ⟨b, rfl, ⟨_, hb, hinc.sublist ?_, fun t ht => (hkept t ht).1⟩, ?_, fun _ => ?_⟩
    · exact List.filter_sublist.map _
    · exact result (fun t ht => ⟨(hkept t ht).1, (hkept t ht).2.1⟩) hb
    · exact result (fun t ht => ⟨(hkept t ht).1, (hkept t ht).2.2⟩) hb
  · match ts with
    | t :: rest =>
      have ht := (hts t (by simp)).1
      have hzero : ∀ u ∈ [{ t with coeff := .lit 0 }], u.IsNormal s ∧ Q u.coeff :=
        List.forall_mem_singleton.mpr ⟨ht, hQ⟩
      refine ⟨_, rfl, ⟨[{ t with coeff := .lit 0 }], rfl, List.pairwise_singleton _ _,
        fun u hu => (hzero u hu).1⟩, result hzero rfl, fun h => by cases h⟩

section

variable [OrderKey κ] [LawfulTest κ] [LawfulOrderKey κ]

/-- What normalizing the coefficient of a term leaves. -/
structure NormalizedTo (s : Settings ρ) (t n : KeyedTerm κ) : Prop where
  key_eq : n.key = t.key
  chain_eq : n.chain = t.chain
  stable : n.coeff.IsStable s.tolerance
  eq_of_beq : (n.coeff == t.coeff) = true → n.coeff = t.coeff

/-- Sorting succeeds when the normalization of each merged coefficient settles. -/
theorem exists_sortedTerms {s : Settings ρ} {ts : List (KeyedTerm κ)}
    (hts : ∀ t ∈ ts, t.coeff.Readable) (hset : ∀ t ∈ mergedTerms ts, t.coeff.Settles s) :
    ∃ ns, sortedTerms s ts = .ok ns ∧ List.Forall₂ (NormalizedTo s) (mergedTerms ts) ns := by
  have hmerged : ∀ t ∈ mergedTerms ts, t.coeff.Readable :=
    mergedTerms_forall (fun t u ht hu => readable_hereditary.bin ht hu) hts
  have hnormalize : ∀ us : List (KeyedTerm κ),
      (∀ u ∈ us, u.coeff.Readable ∧ u.coeff.Settles s) →
      ∃ ns, us.mapM (fun t => return { t with coeff := ← t.coeff.normalize s }) =
          (.ok ns : Except Error _) ∧ List.Forall₂ (NormalizedTo s) us ns := by
    intro us hus
    induction us with
    | nil => exact ⟨[], rfl, .nil⟩
    | cons u us ih =>
      rw [List.forall_mem_cons] at hus
      obtain ⟨n, hn, hstable, hsame⟩ := Coeff.normalize_settled hus.1.1 hus.1.2
      obtain ⟨ns, hns, hall⟩ := ih hus.2
      refine ⟨{ u with coeff := n } :: ns, mapM_eq_ok.mpr (.cons ?_ (mapM_eq_ok.mp hns)),
        .cons ⟨rfl, rfl, hstable, hsame⟩ hall⟩
      exact bind_eq_ok.mpr ⟨n, hn, rfl⟩
  exact hnormalize (mergedTerms ts) fun t ht => ⟨hmerged t ht, hset t ht⟩

omit [LawfulTest κ] [LawfulOrderKey κ] [OrderKey κ] in
theorem isSum_of_beq {a b : Operator κ} (h : (a == b) = true) : a.isSum = b.isSum := by
  have hskeleton (x : Operator κ) : x.skeleton.isSum = x.isSum := by
    cases x with
    | bin op y z => cases op <;> rfl
    | _ => rfl
  rw [← hskeleton a, skeleton_of_beq h, hskeleton]

/-- Whether the coefficients of a sum of several terms are normal forms that are not negligible. -/
def IsSignificant (tolerance : ρ) (a : Operator κ) : Prop :=
  a.isSum = true → a.CoeffsAll fun c => c.IsStable tolerance ∧ isNegligible tolerance c = false

/-- The terms whose coefficients sorting brings into normal form. -/
def sortedBy (a : Operator κ) : List (KeyedTerm κ) :=
  match a with
  | add _ _ => ((a.terms.mapM keyed?).map mergedTerms).getD []
  | _ => []

omit [LawfulTest κ] [LawfulOrderKey κ] [OrderKey κ] in
/-- The parts of the terms of a sum. -/
theorem mapM_keyed {sig : Signature} {ts : List (KeyedTerm κ)} (hts : ∀ t ∈ ts, t.IsNormal sig)
    {a : Operator κ} (h : a.terms = ts.map KeyedTerm.operator) : a.terms.mapM keyed? = some ts := by
  rw [h, mapM_eq_some, List.forall₂_map_left_iff, List.forall₂_same]
  exact fun t ht => (hts t ht).keyed

omit [LawfulOrderKey κ] [LawfulTest κ] in
/-- A sum that tests equal to what is left of its merged terms is made of them. -/
theorem significant_of_beq {s : Settings ρ} {sig : Signature} {ts ns : List (KeyedTerm κ)}
    (hts : ∀ t ∈ ts, t.IsNormal sig) (hns : List.Forall₂ (NormalizedTo s) (mergedTerms ts) ns)
    {x y b : Operator κ} (hterms : (add x y).terms = ts.map KeyedTerm.operator)
    (hb : sumOfKeyed? s.tolerance ns = some b) (hbeq : (b == add x y) = true) :
    (add x y).IsIncreasingSum sig ∧ (add x y).IsSignificant s.tolerance := by
  obtain ⟨hkeys, hnormal⟩ := keys_of_forall₂ (fun _ _ h => ⟨h.key_eq, h.chain_eq⟩) hns
  replace hnormal := hnormal sig (mergedTerms_forall (fun _ _ ht _ => ht) hts)
  have hinc : Increasing ns := by
    rw [Increasing, hkeys]
    exact mergedTerms_increasing ts
  unfold sumOfKeyed? at hb
  dsimp only at hb
  split at hb
  · rename_i c hsum
    cases hb
    obtain ⟨us, hus, hall⟩ := keyed_of_beq
      (fun t ht => hnormal t (List.mem_of_mem_filter ht)) hsum hbeq
    obtain ⟨hukeys, hunormal⟩ := keys_of_forall₂ (fun _ _ h => ⟨h.1, h.2.1⟩) hall
    replace hunormal := hunormal sig fun t ht => hnormal t (List.mem_of_mem_filter ht)
    obtain rfl : ts = us := Option.some.inj
      ((mapM_keyed hts hterms).symm.trans (mapM_keyed hunormal (terms_of_sum hus)))
    have htsinc : Increasing ts := by
      rw [Increasing, hukeys]
      exact hinc.sublist (List.filter_sublist.map _)
    rw [mergedTerms_of_increasing htsinc] at hns
    -- no term has been left out, so the terms are their own normalized forms
    have hlarge : ∀ n ∈ ns, (!isNegligible s.tolerance n.coeff) = true :=
      List.length_filter_eq_length_iff.mp (hall.length_eq.trans hns.length_eq)
    rw [List.filter_eq_self.mpr hlarge] at hall
    refine ⟨⟨ts, hus, htsinc, hts⟩, fun _ => (coeffsAll_keyed hts hterms).mpr fun t ht => ?_⟩
    obtain ⟨n, hn, hnt, hsame⟩ := exists_of_forall₂ (forall₂_both hall hns.flip) ht
    rw [← hsame.eq_of_beq hnt.2.2]
    exact ⟨hsame.stable, by simpa using hlarge n hn⟩
  · match ns with
    | n :: rest =>
      cases hb
      cases (isSum_of_beq hbeq).symm.trans rfl

omit [LawfulTest κ] [LawfulOrderKey κ] in
/-- The normalized terms add up to an increasing sum. -/
theorem exists_sum_of_normalized {s : Settings ρ} {sig : Signature} {ts ns : List (KeyedTerm κ)}
    (hne : ts ≠ []) (hts : ∀ t ∈ ts, t.IsNormal sig)
    (hns : List.Forall₂ (NormalizedTo s) (mergedTerms ts) ns) :
    ∃ b, sumOfKeyed? s.tolerance ns = some b ∧ b.IsIncreasingSum sig ∧
      (b.CoeffsAll fun c => c.InNormalForm s.tolerance) ∧
      (b.isSum = true → b.CoeffsAll fun c => isNegligible s.tolerance c = false) := by
  obtain ⟨hkeys, hnormal⟩ := keys_of_forall₂ (fun _ _ h => ⟨h.key_eq, h.chain_eq⟩) hns
  have hnsne : ns ≠ [] := by
    rintro rfl
    exact mergedTerms_ne_nil hne (List.map_eq_nil_iff.mp hkeys.symm)
  have hinc : Increasing ns := by
    rw [Increasing, hkeys]
    exact mergedTerms_increasing ts
  refine exists_sumOfKeyed s.tolerance (Coeff.inNormalForm_lit s.tolerance 0) hnsne hinc fun n hn => ?_
  obtain ⟨t, -, htn⟩ := exists_of_forall₂ hns hn
  exact ⟨hnormal sig (mergedTerms_forall (fun _ _ ht _ => ht) hts) n hn, htn.stable.normal⟩

/--
A sort leads from one sum of readable terms to another one. If the two test equal, the keys increase
and no coefficient is negligible.
-/
theorem exists_sortTerms {s : Settings ρ} {sig : Signature} {a : Operator κ} (h : a.IsTermSum sig)
    (hread : a.CoeffsAll Coeff.Readable) (hset : ∀ t ∈ a.sortedBy, t.coeff.Settles s) :
    ∃ b, a.sortTerms s = .ok b ∧ b.IsTermSum sig ∧ b.CoeffsAll Coeff.Readable ∧
      ((b == a) = true → b.IsIncreasingSum sig ∧ b.IsSignificant s.tolerance) := by
  rcases h.cases with hsum | ⟨t, ht, rfl⟩
  · obtain ⟨x, y, rfl⟩ := isSum_iff.mp hsum
    obtain ⟨ts, hterms, hts⟩ := h
    have hkeyed := mapM_keyed hts hterms
    have hcoeffs := (coeffsAll_keyed hts hterms).mp hread
    have hne : ts ≠ [] := by
      rintro rfl
      exact operands_ne_nil _ _ hterms
    rw [sortedBy, hkeyed] at hset
    obtain ⟨ns, hns, hall⟩ := exists_sortedTerms hcoeffs hset
    obtain ⟨b, hb, hbinc, hbform, -⟩ := exists_sum_of_normalized hne hts hall
    have hbread : b.CoeffsAll Coeff.Readable := fun c hc => (hbform c hc).textFree.readable
    have hsort : (add x y).sortTerms s = .ok (if b == add x y then add x y else b) := by
      simp only [sortTerms, hkeyed, hns, ok_bind, hb, Option.getD_some]
      rfl
    by_cases hbeq : (b == add x y) = true
    · rw [if_pos hbeq] at hsort
      exact ⟨_, hsort, ⟨ts, hterms, hts⟩, hread,
        fun _ => significant_of_beq hts hall hterms hb hbeq⟩
    · rw [if_neg hbeq] at hsort
      exact ⟨b, hsort, hbinc.isTermSum, hbread, fun h => absurd h hbeq⟩
  · refine ⟨t.operator, rfl, h, hread, fun _ => ⟨?_, fun h => by cases h⟩⟩
    exact ⟨[t], rfl, List.pairwise_singleton _ _, List.forall_mem_singleton.mpr ht⟩

omit [LawfulTest κ] [LawfulOrderKey κ] in
theorem sortTerms_of_not_sum {s : Settings ρ} {a : Operator κ} (h : a.isSum = false) :
    a.sortTerms s = .ok a := by
  unfold sortTerms
  split
  · cases h
  · rfl

omit [LawfulTest κ] [LawfulOrderKey κ] in
/-- Sorting leaves a sum alone whose keys increase and whose coefficients are their own normal forms,
none of them negligible. -/
theorem sortTerms_of_keyed {s : Settings ρ} {ts : List (KeyedTerm κ)} {a : Operator κ}
    (hsum : sum? (ts.map KeyedTerm.operator) = some a) (hkeyed : a.terms.mapM keyed? = some ts)
    (hinc : Increasing ts) (hcoeff : ∀ t ∈ ts, t.coeff.normalize s = .ok t.coeff)
    (hlarge : ∀ t ∈ ts, isNegligible s.tolerance t.coeff = false) : a.sortTerms s = .ok a := by
  have hsorted : sortedTerms s ts = .ok ts := by
    change (mergedTerms ts).mapM _ = _
    rw [mergedTerms_of_increasing hinc, mapM_eq_ok, List.forall₂_same]
    exact fun t ht => bind_eq_ok.mpr ⟨t.coeff, hcoeff t ht, rfl⟩
  have hkept : sumOfKeyed? s.tolerance ts = some a := by
    have hfilter : ts.filter (fun t => !isNegligible s.tolerance t.coeff) = ts :=
      List.filter_eq_self.mpr fun t ht => by rw [hlarge t ht]; rfl
    have hsum : sum? (ts.map fun t => scale t.coeff t.chain) = some a := hsum
    rw [sumOfKeyed?, hfilter, hsum]
  unfold sortTerms
  split
  · simp only [hkeyed, hsorted, ok_bind, hkept, Option.getD_some, ite_self]
    rfl
  · rfl

omit [LawfulOrderKey κ] in
/-- Sorting leaves an increasing sum alone that has normal forms in front of its terms, none of them
negligible beside others. -/
theorem sortTerms_of_increasing {s : Settings ρ} {sig : Signature} {a : Operator κ}
    (h : a.IsIncreasingSum sig) (hlarge : a.IsSignificant s.tolerance) :
    a.sortTerms s = .ok a := by
  cases hsum : a.isSum with
  | false => exact sortTerms_of_not_sum hsum
  | true =>
    replace hlarge := hlarge hsum
    obtain ⟨ts, hts, hinc, hnormal⟩ := h
    have hterms := terms_of_sum hts
    rw [coeffsAll_keyed hnormal hterms] at hlarge
    refine sortTerms_of_keyed hts (mapM_keyed hnormal hterms) hinc (fun t ht => ?_)
      fun t ht => (hlarge t ht).2
    obtain ⟨hform, hfin⟩ := (hlarge t ht).1
    exact Coeff.normalize_of_inNormalForm hform (Coeff.beq_self_of_finite hfin)

end

end SpinBoson.Operator
