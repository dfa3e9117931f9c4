import Mathlib.Data.List.Induction
import SpinBoson.Proofs.Coeff.Monomials

/-!
One walk that collects like terms leaves nothing to collect, if no product has a sum as a factor.
What is left is made up of monomials with different factors, none of them negligible.
-/
namespace SpinBoson.Coeff

variable {κ ρ : Type} [RealScalar ρ] [Scalar κ ρ] [ExactRing κ] [OrderKey κ]

omit [OrderKey κ] in
theorem unlessEqual_eq (e n : Coeff κ) : unlessEqual e n = n := by
  unfold unlessEqual
  split
  · rename_i h
    exact (eq_of_beq h).symm
  · rfl

theorem collect_add (tolerance : ρ) (a b : Coeff κ) :
    (add a b).collect tolerance = (add a b).collectSum tolerance := unlessEqual_eq _ _

theorem collect_mul (tolerance : ρ) (a b : Coeff κ) :
    (mul a b).collect tolerance = (mul a b).collectProduct tolerance := unlessEqual_eq _ _

/-! Fixed coefficients -/

/-- Whether collecting changes no node and no product has a sum as a factor. -/
def IsCollected (tolerance : ρ) (e : Coeff κ) : Prop :=
  (e.AllNodes fun x => x.collect tolerance = x) ∧ e.NoSumFactor

section Fixed

variable {tolerance : ρ}

omit [ExactRing κ] in
theorem isCollected_bin_iff {op : Op} {a b : Coeff κ} :
    (bin op a b).IsCollected tolerance ↔
      (bin op a b).collect tolerance = bin op a b ∧
        (op = .mul → (∀ c d, a ≠ add c d) ∧ ∀ c d, b ≠ add c d) ∧
        a.IsCollected tolerance ∧ b.IsCollected tolerance := by
  constructor
  · rintro ⟨⟨hroot, ha, hb⟩, hsum, ha', hb'⟩
    exact ⟨hroot, fun hop => hsum a b (by rw [hop]), ⟨ha, ha'⟩, hb, hb'⟩
  · rintro ⟨hroot, hsum, ⟨ha, ha'⟩, hb, hb'⟩
    refine ⟨⟨hroot, ha, hb⟩, fun c d heq => ?_, ha', hb'⟩
    obtain ⟨rfl, rfl, rfl⟩ := bin.inj heq
    exact hsum rfl

omit [ExactRing κ] in
theorem isCollected_lit (z : κ) : (lit z : Coeff κ).IsCollected tolerance :=
  ⟨rfl, fun _ _ h => by cases h⟩

omit [ExactRing κ] in
theorem IsCollected.operands {op : Op} {e : Coeff κ} (h : e.IsCollected tolerance) :
    ∀ t ∈ e.operands op, t.IsCollected tolerance := fun t ht =>
  ⟨AllNodes.operands h.1 t ht, AllNodes.operands h.2 t ht⟩

omit [ExactRing κ] in
theorem IsCollected.operands_bin {op : Op} {a b : Coeff κ} (ha : a.IsCollected tolerance)
    (hb : b.IsCollected tolerance) : ∀ t ∈ (bin op a b).operands op, t.IsCollected tolerance :=
  fun t ht => ⟨allNodes_operands_bin ha.1 hb.1 t ht, allNodes_operands_bin ha.2 hb.2 t ht⟩

/-- Monomials that collecting keeps: with collected symbolic factors and not negligible. -/
structure IsKept (tolerance : ρ) (t : Monomial κ) : Prop where
  atomic : t.Atomic
  collected : ∀ e ∈ t.2, e.IsCollected tolerance
  significant : Scalar.isNegligible tolerance t.1 = false

omit [ExactRing κ] [OrderKey κ] in
theorem ofMonomial_append {z : κ} {es : List (Coeff κ)} {f : Coeff κ} (h : es ≠ [] ∨ z ≠ 1)
    [LawfulBEq κ] : ofMonomial (z, es ++ [f]) = mul (ofMonomial (z, es)) f := by
  cases es with
  | nil =>
    have hz : (z == 1) = false := beq_false_of_ne (h.resolve_left fun h => h rfl)
    simp [ofMonomial, hz]
  | cons e es =>
    simp only [List.cons_append, ofMonomial]
    split
    · rw [List.foldl_append]; rfl
    · rw [← List.cons_append, List.foldl_append]; rfl

omit [ExactRing κ] [OrderKey κ] in
theorem ofMonomial_ne_add {t : Monomial κ} (h : t.Atomic) (c d : Coeff κ) :
    ofMonomial t ≠ add c d :=
  ne_bin_of_mem_operands (terms_ofMonomial h ▸ List.mem_singleton_self _ : _ ∈ (ofMonomial t).terms)
    c d

theorem collectProduct_ofMonomial {t : Monomial κ} (h : IsKept tolerance t) :
    (ofMonomial t).collectProduct tolerance = ofMonomial t := by
  simp [collectProduct, monomial_ofMonomial h.atomic, h.significant]

theorem isCollected_ofMonomial {t : Monomial κ} (h : IsKept tolerance t) :
    (ofMonomial t).IsCollected tolerance := by
  obtain ⟨z, es⟩ := t
  induction es using List.reverseRecOn with
  | nil => exact isCollected_lit z
  | append_singleton es f ih =>
    have hf : f ∈ es ++ [f] := List.mem_append_right _ (List.mem_singleton_self f)
    have hinit : IsKept tolerance (z, es) :=
      ⟨fun e he => h.atomic e (List.mem_append_left _ he),
        fun e he => h.collected e (List.mem_append_left _ he), h.significant⟩
    by_cases hcase : es ≠ [] ∨ z ≠ 1
    · have heq : ofMonomial (z, es ++ [f]) = mul (ofMonomial (z, es)) f := ofMonomial_append hcase
      have hfixed := collectProduct_ofMonomial h
      rw [heq] at hfixed ⊢
      refine isCollected_bin_iff.mpr
        ⟨(collect_mul tolerance _ _).trans hfixed, fun _ => ⟨?_, ?_⟩, ih hinit, h.collected f hf⟩
      · exact ofMonomial_ne_add hinit.atomic
      · exact fun c d => (h.atomic f hf).2 .add c d (.inl rfl)
    · obtain ⟨rfl, rfl⟩ : es = [] ∧ z = 1 := by simpa using hcase
      simpa [ofMonomial] using h.collected f hf

/-- The monomials of a sum are grouped into kept ones with different factors. -/
theorem kept_groupTerms {e : Coeff κ} (h : ∀ t ∈ e.terms, t.IsCollected tolerance) :
    (∀ m ∈ e.groupTerms.filter fun t => !Scalar.isNegligible tolerance t.1, IsKept tolerance m) ∧
      ((e.groupTerms.filter fun t => !Scalar.isNegligible tolerance t.1).map Prod.snd).Nodup := by
  refine ⟨fun m hm => ?_, ?_⟩
  · obtain ⟨hmem, hlarge⟩ := List.mem_filter.mp hm
    obtain ⟨u, hu, heq⟩ := Groups.mem_of_mem_ofMonomials hmem
    obtain ⟨t, ht, rfl⟩ := List.mem_map.mp hu
    have hatomic := atomic_monomial (h t ht).2 (ne_bin_of_mem_operands ht)
    refine ⟨fun f hf => hatomic f (heq ▸ hf), fun f hf => ?_, by simpa using hlarge⟩
    exact (h t ht).operands f (mem_monomial.mp (heq ▸ hf : f ∈ t.monomial.2)).1
  · exact (Groups.ofMonomials_nodup (e.terms.map monomial)).sublist (List.filter_sublist.map _)

omit [ExactRing κ] [OrderKey κ] in
theorem terms_leftNested {ms : List (Monomial κ)} (h : ∀ m ∈ ms, m.Atomic) {e : Coeff κ}
    (he : leftNested? add (ms.map ofMonomial) = some e) : e.terms = ms.map ofMonomial := by
  refine operands_leftNested he fun t ht => ?_
  obtain ⟨m, hm, rfl⟩ := List.mem_map.mp ht
  exact terms_ofMonomial (h m hm)

/-- A sum of kept monomials with different factors is made of its groups. -/
theorem groupTerms_leftNested {ms : List (Monomial κ)} (h : ∀ m ∈ ms, m.Atomic)
    (hnodup : (ms.map Prod.snd).Nodup) {e : Coeff κ}
    (he : leftNested? add (ms.map ofMonomial) = some e) : e.groupTerms = ms := by
  have hmonomials : e.terms.map monomial = ms := by
    rw [terms_leftNested h he, List.map_map]
    refine (List.map_congr_left fun m hm => ?_).trans (List.map_id ms)
    exact monomial_ofMonomial (h m hm)
  rw [groupTerms, hmonomials, Groups.ofMonomials_of_nodup hnodup]

theorem collectSum_leftNested {ms : List (Monomial κ)} (h : ∀ m ∈ ms, IsKept tolerance m)
    (hnodup : (ms.map Prod.snd).Nodup) {e : Coeff κ}
    (he : leftNested? add (ms.map ofMonomial) = some e) : e.collectSum tolerance = e := by
  have hall : ms.filter (fun t => !Scalar.isNegligible tolerance t.1) = ms :=
    List.filter_eq_self.mpr fun m hm => by rw [(h m hm).significant]; rfl
  rw [collectSum, groupTerms_leftNested (fun m hm => (h m hm).atomic) hnodup he, hall, he,
    Option.getD_some]

theorem isCollected_leftNested {ms : List (Monomial κ)} (h : ∀ m ∈ ms, IsKept tolerance m)
    (hnodup : (ms.map Prod.snd).Nodup) {e : Coeff κ}
    (he : leftNested? add (ms.map ofMonomial) = some e) : e.IsCollected tolerance := by
  induction ms using List.reverseRecOn generalizing e with
  | nil => cases he
  | append_singleton ms m ih =>
    have hm := isCollected_ofMonomial (h m (List.mem_append_right _ (List.mem_singleton_self m)))
    have hfixed := collectSum_leftNested h hnodup he
    rw [List.map_append, List.map_singleton] at he
    rcases leftNested?_append_eq_some.mp he with ⟨-, rfl⟩ | ⟨n, hinit, rfl⟩
    · exact hm
    · refine isCollected_bin_iff.mpr
        ⟨(collect_add tolerance _ _).trans hfixed, nofun, ?_, hm⟩
      exact ih (fun m' hm' => h m' (List.mem_append_left _ hm'))
        (hnodup.sublist ((List.sublist_append_left _ _).map _)) hinit

/-! Walks -/

theorem isCollected_collectSum {a b : Coeff κ} (ha : a.IsCollected tolerance)
    (hb : b.IsCollected tolerance) : ((add a b).collectSum tolerance).IsCollected tolerance := by
  obtain ⟨hkept, hnodup⟩ := kept_groupTerms (ha.operands_bin hb)
  unfold collectSum
  dsimp only
  cases hnest : leftNested? add (List.map ofMonomial
      ((add a b).groupTerms.filter fun t => !Scalar.isNegligible tolerance t.1)) with
  | none => exact isCollected_lit 0
  | some n => exact isCollected_leftNested hkept hnodup hnest

theorem isCollected_collectProduct {a b : Coeff κ} (ha : a.IsCollected tolerance)
    (hb : b.IsCollected tolerance) (hsum : (∀ c d, a ≠ add c d) ∧ ∀ c d, b ≠ add c d) :
    ((mul a b).collectProduct tolerance).IsCollected tolerance ∧
      ∀ c d, (mul a b).collectProduct tolerance ≠ add c d := by
  have hno : (mul a b).NoSumFactor := by
    refine ⟨fun c d heq => ?_, ha.2, hb.2⟩
    obtain ⟨-, rfl, rfl⟩ := bin.inj heq
    exact hsum
  have hatomic := atomic_monomial hno fun _ _ h => by cases h
  unfold collectProduct
  dsimp only
  split
  · exact ⟨isCollected_lit 0, fun _ _ h => by cases h⟩
  · rename_i hlarge
    have hkept : IsKept tolerance (mul a b).monomial :=
      ⟨hatomic, fun f hf => ha.operands_bin hb f (mem_monomial.mp hf).1, by simpa using hlarge⟩
    exact ⟨isCollected_ofMonomial hkept, ofMonomial_ne_add hatomic⟩

/-- One walk leaves nothing to collect. -/
theorem rewrite_collect_isCollected (tolerance : ρ) {e : Coeff κ} (h : e.NoSumFactor) :
    (e.rewrite (collect tolerance)).IsCollected tolerance ∧
      ((∀ c d, e ≠ add c d) → ∀ c d, e.rewrite (collect tolerance) ≠ add c d) := by
  induction e with
  | lit z => exact ⟨isCollected_lit z, id⟩
  | var | raw => exact ⟨⟨rfl, fun _ _ h => by cases h⟩, id⟩
  | neg e ih | app f e ih =>
    obtain ⟨hfixed, hsum⟩ := (ih h.2).1
    exact ⟨⟨⟨rfl, hfixed⟩, (fun _ _ h => by cases h), hsum⟩, fun _ _ _ h => by cases h⟩
  | bin op a b iha ihb =>
    obtain ⟨ha, hasum⟩ := iha h.2.1
    obtain ⟨hb, hbsum⟩ := ihb h.2.2
    unfold rewrite
    by_cases hadd : op = .add
    · subst hadd
      refine ⟨?_, fun hne => absurd rfl (hne a b)⟩
      rw [collect_add]
      exact isCollected_collectSum ha hb
    by_cases hmul : op = .mul
    · subst hmul
      obtain ⟨hasum', hbsum'⟩ := h.1 a b rfl
      obtain ⟨hfixed, hne⟩ :=
        isCollected_collectProduct ha hb ⟨hasum hasum', hbsum hbsum'⟩
      rw [collect_mul]
      exact ⟨hfixed, fun _ => hne⟩
    · have hsame (x y : Coeff κ) : (bin op x y).collect tolerance = bin op x y := by
        cases op <;> first | rfl | contradiction
      rw [hsame]
      refine ⟨isCollected_bin_iff.mpr ⟨hsame _ _, fun hop => absurd hop hmul, ha, hb⟩, ?_⟩
      exact fun _ c d heq => hadd (bin.inj heq).1

end Fixed

/-! Distributed coefficients -/

omit [ExactRing κ] [OrderKey κ] in
/-- In a distributed coefficient no product has a sum as a factor. -/
theorem noSumFactor_of_distributed {e : Coeff κ} (h : e.AllNodes fun x => x.distribute = x) :
    e.NoSumFactor := by
  refine h.imp fun x hx a b heq => ?_
  subst heq
  constructor
  · rintro c d rfl
    cases b <;> simp [distribute] at hx
  · rintro c d rfl
    cases a with
    | bin op x y => cases op <;> simp [distribute] at hx
    | _ => simp [distribute] at hx

end SpinBoson.Coeff
