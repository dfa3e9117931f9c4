import SpinBoson.Proofs.Canonical.Readable
import SpinBoson.Proofs.Canonical.Recognition
import SpinBoson.Proofs.Canonical.Rest
import SpinBoson.Proofs.Circuit.Observables
import SpinBoson.Proofs.Pointwise

/-!
Canonicalization of circuits, lists and named operators: it is the canonicalization of each operator
in them, and nothing else. Every repetition on the way is steady, so it does not matter for how long
the other operators keep it going.
-/
namespace SpinBoson

open Container

variable {κ ρ α : Type}

/-! Sorting -/

namespace Operator

/-- A chain of an operation other than addition holds no sum if its operands hold none. -/
theorem sumFree_of_operands (op : Op) (hop : op ≠ .add) {a : Operator κ}
    (h : ∀ x ∈ a.operands op, x.AllNodes fun y => y.isSum = false) :
    a.AllNodes fun y => y.isSum = false := by
  refine of_operands op (fun x y hx hy => ⟨?_, hx, hy⟩) h
  cases op with
  | add => exact absurd rfl hop
  | sub | mul | kron => rfl

theorem sumFree_of_factorKey {a : Operator κ} {key : FactorKey} (h : a.factorKey? = some key) :
    a.AllNodes fun y => y.isSum = false := by
  unfold factorKey? at h
  split at h
  · rfl
  · obtain ⟨letters, hletters, -⟩ := Option.map_eq_some_iff.mp h
    refine sumFree_of_operands .mul (by decide) fun x hx => ?_
    obtain ⟨l, -, hl⟩ := exists_of_forall₂ (mapM_eq_some.mp hletters).flip hx
    cases x with
    | mode => rfl
    | spin | bin | scale => cases hl

theorem sumFree_of_termKey {a : Operator κ} {key : TermKey} (h : a.termKey? = some key) :
    a.unscaled.AllNodes fun y => y.isSum = false := by
  refine sumFree_of_operands .kron (by decide) fun x hx => ?_
  obtain ⟨f, -, hf⟩ := exists_of_forall₂ (mapM_eq_some.mp h).flip hx
  exact sumFree_of_factorKey hf

/-- The sum of some operators is one of them or a proper sum. -/
theorem mem_or_isSum_of_sum {xs : List (Operator κ)} {a : Operator κ} (h : sum? xs = some a) :
    a ∈ xs ∨ a.isSum = true := by
  rcases List.eq_nil_or_concat xs with rfl | ⟨init, b, rfl⟩
  · cases h
  · rw [List.concat_eq_append] at h
    rcases leftNested?_append_eq_some.mp h with ⟨-, rfl⟩ | ⟨c, -, rfl⟩
    · exact .inl (by simp)
    · exact .inr rfl

variable [RealScalar ρ] [Scalar κ ρ]

theorem sumFree_of_keyed {a : Operator κ} {t : KeyedTerm κ} (h : a.keyed? = some t) :
    t.chain.AllNodes fun y => y.isSum = false := by
  unfold keyed? at h
  split at h
  · obtain ⟨key, hkey, rfl⟩ := Option.map_eq_some_iff.mp h
    exact sumFree_of_termKey hkey
  · rename_i hscale
    obtain ⟨key, hkey, rfl⟩ := Option.map_eq_some_iff.mp h
    have hfree := sumFree_of_termKey hkey
    cases a with
    | scale c x => exact absurd rfl (hscale c x)
    | spin | mode | bin => exact hfree

/-- What terms without sums in them add up to is a proper sum, or has no sum in it. -/
theorem isSum_or_sumFree_of_keyed {ts : List (KeyedTerm κ)}
    (hts : ∀ t ∈ ts, t.chain.AllNodes fun y => y.isSum = false) {tolerance : ρ} {a : Operator κ}
    (h : sumOfKeyed? tolerance ts = some a) :
    a.isSum = true ∨ a.AllNodes fun y => y.isSum = false := by
  unfold sumOfKeyed? at h
  dsimp only at h
  split at h
  · rename_i b hb
    cases h
    rcases mem_or_isSum_of_sum hb with hmem | hsum
    · obtain ⟨t, ht, rfl⟩ := List.mem_map.mp hmem
      exact .inr ⟨rfl, hts t (List.mem_of_mem_filter ht)⟩
    · exact .inl hsum
  · obtain ⟨t, ht, rfl⟩ := Option.map_eq_some_iff.mp h
    exact .inr ⟨rfl, hts t (List.mem_of_mem_head? ht)⟩

section Sorting

variable [OrderKey κ] {s : Settings ρ} {a b : Operator κ}

theorem chain_of_sortedTerms {P : Operator κ → Prop} {ts ns : List (KeyedTerm κ)}
    (hts : ∀ t ∈ ts, P t.chain) (h : sortedTerms s ts = .ok ns) : ∀ n ∈ ns, P n.chain := by
  have hmerged : ∀ t ∈ mergedTerms ts, P t.chain :=
    mergeKeyed_forall (fun _ _ ht _ => ht) fun t ht =>
      hts t ((List.mergeSort_perm ts _).mem_iff.mp ht)
  intro n hn
  obtain ⟨t, ht, hnt⟩ := exists_of_forall₂ (mapM_eq_ok.mp h) hn
  obtain ⟨c, -, hnt⟩ := bind_eq_ok.mp hnt
  cases hnt
  exact hmerged t ht

/-- What a sum becomes when it is sorted is a sum again, or has no sum in it. -/
theorem isSum_or_sumFree_of_sortTerms (ha : a.isSum = true) (h : a.sortTerms s = .ok b) :
    b.isSum = true ∨ b.AllNodes fun y => y.isSum = false := by
  obtain ⟨x, y, rfl⟩ := isSum_iff.mp ha
  unfold sortTerms at h
  dsimp only at h
  split at h
  · cases h
    exact .inl rfl
  · rename_i ts hts
    obtain ⟨ns, hns, h⟩ := bind_eq_ok.mp h
    have hfree : ∀ n ∈ ns, n.chain.AllNodes fun y => y.isSum = false := by
      refine chain_of_sortedTerms (fun t ht => ?_) hns
      obtain ⟨u, -, hu⟩ := exists_of_forall₂ (mapM_eq_some.mp hts) ht
      exact sumFree_of_keyed hu
    have hsorted : ∀ z, sumOfKeyed? s.tolerance ns = some z →
        z.isSum = true ∨ z.AllNodes fun y => y.isSum = false :=
      fun _ => isSum_or_sumFree_of_keyed hfree
    cases Except.ok.inj h
    split
    · exact .inl rfl
    · cases hz : sumOfKeyed? s.tolerance ns with
      | none => exact .inl rfl
      | some z => exact hsorted z hz

/-- What is not a sum is entered as it is. -/
theorem down_sortTerms_of_not_sum (ha : a.isSum = false) (n : Nat) :
    a.down (sortTermsRule s) .first (n + 1) =
      a.mapOperands pure (down (sortTermsRule s) .first n) := by
  have hrule : (sortTermsRule s).operator a = .ok a := sortTerms_of_not_sum ha
  have hdescends : (sortTermsRule (κ := κ) s).descends a = true := by
    simp [sortTermsRule, Rule.descending, ha]
  have hcoeff : Coeff.down (sortTermsRule (κ := κ) s) .first n = pure :=
    funext (Coeff.down_of_coeff_pure rfl .first n)
  rw [← hcoeff]
  simp only [down, hrule, ok_bind, hdescends, if_true]

/-- A sum is sorted as a whole. -/
theorem down_sortTerms_of_sum (ha : a.isSum = true) (n : Nat) :
    a.down (sortTermsRule s) .first (n + 1) = a.sortTerms s := by
  have hnode : a.down (sortTermsRule s) .first (n + 1) = a.sortTerms s >>= fun b =>
      if (sortTermsRule s).descends b then
        b.mapOperands (Coeff.down (sortTermsRule s) .first n) (down (sortTermsRule s) .first n)
      else .ok b := rfl
  rw [hnode]
  cases hb : a.sortTerms s with
  | error e => rfl
  | ok b =>
    rw [ok_bind]
    rcases isSum_or_sumFree_of_sortTerms ha hb with hsum | hfree
    · exact if_neg (by simp [sortTermsRule, Rule.descending, hsum])
    · have hcoeff : Coeff.down (sortTermsRule (κ := κ) s) .first n = pure :=
        funext (Coeff.down_of_coeff_pure rfl .first n)
      rw [if_pos (by simp [sortTermsRule, Rule.descending, hfree.root]), hcoeff,
        ← down_sortTerms_of_not_sum hfree.root n]
      refine down_of_allVisited rfl (AllNodes.allVisited ?_ _) (n + 1)
      exact hfree.imp fun _ => sortTerms_of_not_sum

/-- Below the last level there is nothing to sort. -/
theorem down_sortTerms_height {n m : Nat} (hn : a.height ≤ n) (hm : a.height ≤ m) :
    a.down (sortTermsRule s) .first n = a.down (sortTermsRule s) .first m := by
  induction n generalizing a m with
  | zero => cases a <;> simp [height] at hn
  | succ n ih =>
    cases m with
    | zero => cases a <;> simp [height] at hm
    | succ m =>
      cases hsum : a.isSum with
      | true => rw [down_sortTerms_of_sum hsum, down_sortTerms_of_sum hsum]
      | false =>
        rw [down_sortTerms_of_not_sum hsum, down_sortTerms_of_not_sum hsum]
        cases a with
        | spin | mode => rfl
        | bin op x y =>
          simp only [height] at hn hm
          rw [mapOperands, mapOperands, ih (a := x) (m := m) (by omega) (by omega),
            ih (a := y) (m := m) (by omega) (by omega)]
        | scale c x =>
          simp only [height] at hn hm
          rw [mapOperands, mapOperands, ih (a := x) (m := m) (by omega) (by omega)]

theorem steady_sortTerms : Steady (sortTerms (κ := κ) s) := by
  intro a b h hbeq
  unfold sortTerms at h
  split at h
  · split at h
    · exact (Except.ok.inj h).symm
    · obtain ⟨ns, -, h⟩ := bind_eq_ok.mp h
      cases Except.ok.inj h
      split at hbeq
      · exact if_pos ‹_›
      · rename_i hne
        exact absurd hbeq hne
  · exact (Except.ok.inj h).symm

theorem steady_down_sortTerms (n : Nat) : Steady (down (sortTermsRule (κ := κ) s) .first n) := by
  induction n with
  | zero =>
    intro a b h _
    exact (Except.ok.inj h).symm
  | succ n ih =>
    intro a b h hbeq
    cases hsum : a.isSum with
    | true =>
      rw [down_sortTerms_of_sum hsum] at h
      exact steady_sortTerms a b h hbeq
    | false =>
      rw [down_sortTerms_of_not_sum hsum] at h
      cases a with
      | spin | mode => exact (Except.ok.inj h).symm
      | bin op x y =>
        obtain ⟨x', hx, h⟩ := bind_eq_ok.mp h
        obtain ⟨y', hy, h⟩ := bind_eq_ok.mp h
        cases h
        obtain ⟨_, _, ⟨⟩, hbx, hby⟩ := bin_beq.mp hbeq
        rw [ih x x' hx hbx, ih y y' hy hby]
      | scale c x =>
        simp only [mapOperands, pure_bind] at h
        obtain ⟨x', hx, h⟩ := bind_eq_ok.mp h
        cases h
        obtain ⟨_, _, ⟨⟩, -, hbx⟩ := scale_beq.mp hbeq
        rw [ih x x' hx hbx]

end Sorting

/-! Scaling terms -/

omit [RealScalar ρ] [Scalar κ ρ] in
/-- Whether every term has a coefficient. -/
def termsScaled : Operator κ → Bool
  | add a b => a.termsScaled && b.termsScaled
  | a => a.isScaled

omit [RealScalar ρ] [Scalar κ ρ] in
theorem termsScaled_skeleton (a : Operator κ) : a.skeleton.termsScaled = a.termsScaled := by
  induction a with
  | spin | mode | scale => rfl
  | bin op a b iha ihb =>
    cases op with
    | add => simp only [skeleton, termsScaled, iha, ihb]
    | sub | mul | kron => rfl

theorem termsScaled_scaleTerms (a : Operator κ) : a.scaleTerms.termsScaled = true := by
  induction a with
  | spin | mode | scale => rfl
  | bin op a b iha ihb =>
    cases op with
    | add => simp only [scaleTerms, termsScaled, iha, ihb, Bool.and_self]
    | sub | mul | kron => rfl

theorem scaleTerms_of_termsScaled {a : Operator κ} (h : a.termsScaled = true) :
    a.scaleTerms = a := by
  induction a with
  | scale => rfl
  | spin | mode => cases h
  | bin op a b iha ihb =>
    cases op with
    | add =>
      obtain ⟨ha, hb⟩ := Bool.and_eq_true_iff.mp h
      rw [scaleTerms, iha ha, ihb hb]
    | sub | mul | kron => cases h

/-- Gathering takes no term its coefficient. -/
theorem termsScaled_gather {a : Operator κ} (h : a.termsScaled = true) :
    (a.rewrite gatherCoeffs).termsScaled = true := by
  induction a with
  | spin | mode => cases h
  | scale c a _ =>
    rw [rewrite]
    cases a.rewrite gatherCoeffs <;> rfl
  | bin op a b iha ihb =>
    cases op with
    | add =>
      obtain ⟨ha, hb⟩ := Bool.and_eq_true_iff.mp h
      change ((a.rewrite gatherCoeffs).termsScaled && (b.rewrite gatherCoeffs).termsScaled) = true
      rw [iha ha, ihb hb, Bool.and_self]
    | sub | mul | kron => cases h

end Operator

namespace Canonical

open Operator Pass

variable [RealScalar ρ] [Scalar κ ρ]

/-! The repetitions are steady -/

theorem run_scaleTerms_gather (name : String) (a : Operator κ) :
    (Pass.chain name [.ofRule .pre (scaleTermsRule (κ := κ)), .ofRule .post (gatherRule (κ := κ))] :
      Pass (Operator κ)).run a = .ok (a.scaleTerms.rewrite gatherCoeffs) :=
  bind_eq_ok.mpr ⟨_, walk_scaleTerms a, bind_eq_ok.mpr ⟨_, run_ofOperator _ gatherCoeffs _, rfl⟩⟩

theorem steady_distribution (name : String) :
    Steady (Pass.chain name
      [.ofRule .post (distributeRule (κ := κ)), .ofRule .post (gatherRule (κ := κ))] :
        Pass (Operator κ)).run :=
  steady_of_measure (tested_roundMeasure distribution)
    (run_round _ _ _ distribute gatherCoeffs)
    (round_lower distribution_strict distribute_lighter gatherCoeffs_le_distribution)

theorem steady_reduction (name : String) :
    Steady (Pass.chain name
      [.ofRule .post (pauliRule (κ := κ)), .ofRule .post (gatherRule (κ := κ))] :
        Pass (Operator κ)).run :=
  steady_of_measure (tested_roundMeasure reduction)
    (run_round _ _ _ reducePauli gatherCoeffs)
    (round_lower reduction_strict reducePauli_lighter gatherCoeffs_le_reduction)

omit [RealScalar ρ] [Scalar κ ρ] in
theorem steady_gatherQubits [BEq κ] :
    Steady (Pass.ofRule .post (gatherQubitsRule (κ := κ)) : Pass (Operator κ)).run :=
  steady_of_measure (tested_disorder qubitsFirst) (up_ofOperator _ gatherQubits) gatherQubits_lower

theorem steady_ordering :
    Steady (Pass.chain "normal order"
      [.ofRule .post (normalOrderRule (κ := κ)), .ofRule .post (distributeRule (κ := κ)),
        .ofRule .post (gatherRule (κ := κ))] : Pass (Operator κ)).run :=
  steady_of_measure tested_orderingMeasure run_ordering ordering_lower

theorem steady_prune :
    Steady (Pass.ofRule .post (pruneRule (κ := κ)) : Pass (Operator κ)).run :=
  steady_of_measure (tested_weigh gathering) (run_ofOperator _ pruneIdentity) prune_lower

/--
A round that leaves a value equal to the one before had nothing to scale, and so only gathers.
-/
theorem steady_scaleTerms (name : String) :
    Steady (Pass.chain name
      [.ofRule .pre (scaleTermsRule (κ := κ)), .ofRule .post (gatherRule (κ := κ))] :
        Pass (Operator κ)).run := by
  intro a b hb hbeq
  obtain rfl := Except.ok.inj ((run_scaleTerms_gather name a).symm.trans hb)
  have hscaled : a.termsScaled = true := by
    rw [← termsScaled_skeleton, ← skeleton_of_beq hbeq, termsScaled_skeleton]
    exact termsScaled_gather (termsScaled_scaleTerms a)
  rw [scaleTerms_of_termsScaled hscaled] at hbeq ⊢
  rcases rewrite_gatherCoeffs_lighter a with ⟨hsame, -⟩ | hlighter
  · exact hsame
  · exact absurd hlighter (Nat.ne_of_lt · (Weighing.weigh_of_beq hbeq))

theorem steady_sorting [OrderKey κ] (s : Settings ρ) :
    Steady (Pass.ofRule .pre (sortTermsRule (κ := κ) s) : Pass (Operator κ)).run := by
  intro a b hb hbeq
  obtain ⟨n, -, hwalk⟩ := Operator.exists_walk_pre (sortTermsRule (κ := κ) s) a
  exact steady_down_sortTerms n a b (hwalk.symm.trans hb) hbeq

/-! Steps on values beside steps on operators -/

section Steps

variable [Walkable κ α] [Container κ α] [BEq α] {r : Rule κ (Except Error)}

omit [RealScalar ρ] [Scalar κ ρ] in
theorem pointwise_post [BEq κ] (hr : r.LeavesContainers) :
    Pointwise (Pass.ofRule .post r : Pass α).run (Pass.ofRule .post r : Pass (Operator κ)).run := by
  intro a b
  change Walkable.up r a = .ok b ↔ _
  rw [up_eq hr]
  exact replace_mapM_iff fun _ _ => rfl

omit [RealScalar ρ] [Scalar κ ρ] in
/-- From the root down, where a walk finds nothing to do beyond the levels of an operator. -/
theorem pointwise_pre [BEq κ] (hα : levels κ α ≤ growth) (hr : r.LeavesContainers)
    (hlevels : ∀ (x : Operator κ) {n m : Nat}, x.height ≤ n → x.height ≤ m →
      x.down r .first n = x.down r .first m) :
    Pointwise (Pass.ofRule .pre r : Pass α).run (Pass.ofRule .pre r : Pass (Operator κ)).run := by
  intro a b
  obtain ⟨n, hn, hwalk⟩ := Container.exists_walk_pre hα hr a
  change walk .pre r a = .ok b ↔ _
  rw [hwalk]
  refine replace_mapM_iff fun x hx => ?_
  obtain ⟨m, hm, hwalkx⟩ := Operator.exists_walk_pre r x
  exact (hlevels x (hn x hx) hm).trans hwalkx.symm

omit [RealScalar ρ] [Scalar κ ρ] in
/-- A check that judges a value by its operators. -/
theorem pointwise_of_accepts [BEq κ] {p : Pass α} {q : Pass (Operator κ)} {P : Operator κ → Prop}
    (hp : p.Accepts fun a => ∀ x ∈ operators (κ := κ) a, P x)
    (hq : q.Accepts fun a => ∀ x ∈ operators (κ := κ) a, P x) : Pointwise p.run q.run := by
  intro a b
  have hone (x y : Operator κ) : q.run x = .ok y ↔ x = y ∧ P x := by
    rw [hq, eq_comm]
    exact and_congr_right fun _ => List.forall_mem_singleton
  simp only [hp a b, hone]
  constructor
  · rintro ⟨rfl, h⟩
    exact ⟨_, List.forall₂_same.mpr fun x hx => ⟨rfl, h x hx⟩, (replace_operators b).symm⟩
  · rintro ⟨xs, hxs, rfl⟩
    obtain rfl : operators a = xs := List.forall₂_eq_eq_eq ▸ hxs.imp fun _ _ h => h.1
    exact ⟨replace_operators a, fun x hx => (List.forall₂_same.mp hxs x hx).2⟩

end Steps

section Way

variable [Walkable κ α] [Container κ α] [BEq α]

theorem pointwise_check_up {name : String} {violation? : Operator κ → Option Violation} :
    Pointwise (check κ .post (Rule.ofCheck name violation?) : Pass α).run
      (check κ .post (Rule.ofCheck name violation?) : Pass (Operator κ)).run :=
  pointwise_of_accepts check_up_accepts check_up_accepts

theorem pointwise_check_down (hα : levels κ α ≤ growth) {name : String}
    {violation? : Operator κ → Option Violation} {descends : Operator κ → Bool} :
    Pointwise (check κ .pre ((Rule.ofCheck name violation?).descending descends) : Pass α).run
      (check κ .pre ((Rule.ofCheck name violation?).descending descends) :
        Pass (Operator κ)).run :=
  pointwise_of_accepts (check_down_accepts hα) (check_down_accepts (Nat.zero_le _))

variable [OrderKey κ] [TestsOperators κ α]

/-- The way to the canonical form goes through each operator of a value on its own. -/
theorem canonicalization_pointwise (hα : levels κ α ≤ growth) (s : Settings ρ) :
    Pointwise (canonicalization κ s : Pass α).run
      (canonicalization κ s : Pass (Operator κ)).run := by
  have walks {name : String} {f : Operator κ → Operator κ} :
      Pointwise (Pass.ofRule .post (Rule.ofOperator name fun a => .ok (f a)) : Pass α).run
        (Pass.ofRule .post (Rule.ofOperator name fun a => .ok (f a)) : Pass (Operator κ)).run :=
    pointwise_post ⟨rfl, rfl, rfl⟩
  have scale : Pointwise (Pass.ofRule .pre (scaleTermsRule (κ := κ)) : Pass α).run
      (Pass.ofRule .pre (scaleTermsRule (κ := κ)) : Pass (Operator κ)).run :=
    pointwise_pre hα ⟨rfl, rfl, rfl⟩ fun x _ _ hn hm =>
      (down_scaleTerms hn).trans (down_scaleTerms hm).symm
  have sort : Pointwise (Pass.ofRule .pre (sortTermsRule (κ := κ) s) : Pass α).run
      (Pass.ofRule .pre (sortTermsRule (κ := κ) s) : Pass (Operator κ)).run :=
    pointwise_pre hα ⟨rfl, rfl, rfl⟩ fun _ _ _ => down_sortTerms_height
  have normalize : Pointwise (Pass.ofRule .post (normalizeCoeffRule (κ := κ) s) : Pass α).run
      (Pass.ofRule .post (normalizeCoeffRule (κ := κ) s) : Pass (Operator κ)).run :=
    pointwise_post ⟨rfl, rfl, rfl⟩
  have signatures : Pointwise (checkSignatures κ : Pass α).run
      (checkSignatures κ : Pass (Operator κ)).run :=
    pointwise_of_accepts (checkSignatures_accepts hα) (checkSignatures_accepts (Nat.zero_le _))
  have verify : Pointwise (verification κ : Pass α).run (verification κ : Pass (Operator κ)).run :=
    pointwise_of_accepts (verification_accepts hα) (verification_accepts (Nat.zero_le _))
  have repeated {name : String} {ps : List (Pass α)} {qs : List (Pass (Operator κ))}
      (h : List.Forall₂ (fun p q => Pointwise p.run q.run) ps qs)
      (hq : Steady (Pass.chain name qs).run) (cap : Nat) :=
    (Pointwise.chain h name name).fixedPoint hq cap
  refine Pointwise.chain ?_ _ _
  -- the stages in their order, each followed by its checks
  refine .cons (repeated (.cons walks (.cons walks .nil)) (steady_distribution _) _) ?_
  refine .cons pointwise_check_up (.cons pointwise_check_up (.cons signatures ?_))
  refine .cons (repeated (.cons walks (.cons walks .nil)) (steady_reduction _) _) ?_
  refine .cons pointwise_check_up (.cons (walks.fixedPoint steady_gatherQubits _) ?_)
  refine .cons pointwise_check_up ?_
  refine .cons (repeated (.cons walks (.cons walks (.cons walks .nil))) steady_ordering _) ?_
  refine .cons pointwise_check_up (.cons (walks.fixedPoint steady_prune _) ?_)
  refine .cons pointwise_check_up ?_
  refine .cons (repeated (.cons scale (.cons walks .nil)) (steady_scaleTerms _) _) ?_
  refine .cons (pointwise_check_down hα) (.cons pointwise_check_up ?_)
  refine .cons (sort.fixedPoint (steady_sorting s) _) (.cons (pointwise_check_down hα) ?_)
  exact .cons normalize (.cons verify .nil)

/-- The canonical form of a value exists if those of its operators exist, and holds them. -/
theorem canonicalize_replaced (hα : levels κ α ≤ growth) (s : Settings ρ) (a : α) :
    ((∃ b, canonicalize κ s a = .ok b) ↔
        ∀ x ∈ operators (κ := κ) a, ∃ y, canonicalize κ s x = .ok y) ∧
      ∀ b, canonicalize κ s a = .ok b ↔
        Replaced (fun x y : Operator κ => canonicalize κ s x = .ok y) a b := by
  have hpointwise := canonicalization_pointwise hα s a
  exact ⟨(exists_congr hpointwise).trans exists_replaced, hpointwise⟩

end Way

/-! Circuits, lists and named operators -/

section Replaced

omit [RealScalar ρ] [Scalar κ ρ]

/-- Whether statements differ at most in their Hamiltonians, and these are related. -/
inductive RelatedStatements (R : Operator κ → Operator κ → Prop) : Statement κ → Statement κ → Prop
  | prepare : RelatedStatements R .prepare .prepare
  | measure : RelatedStatements R .measure .measure
  | evolve {g : Gate κ} {h : Operator κ} (duration : Float) (hR : R g.hamiltonian h) :
      RelatedStatements R (.evolve g duration) (.evolve { g with hamiltonian := h } duration)

/-- Whether circuits differ at most in the Hamiltonians of their gates, and these are related. -/
structure RelatedCircuits (R : Operator κ → Operator κ → Prop) (c d : Circuit κ) : Prop where
  name : d.name = c.name
  statements : List.Forall₂ (RelatedStatements R) c.statements d.statements
  qubits : d.qubits? = c.qubits?
  modes : d.modes? = c.modes?

variable {R : Operator κ → Operator κ → Prop}

theorem replaced_statement {s t : Statement κ} : Replaced R s t ↔ RelatedStatements R s t := by
  constructor
  · rintro ⟨xs, hxs, rfl⟩
    cases s with
    | prepare => exact .prepare
    | measure => exact .measure
    | evolve g duration =>
      obtain ⟨x, _, hx, hrest, rfl⟩ := List.forall₂_cons_left_iff.mp hxs
      exact .evolve duration hx
  · intro h
    cases h with
    | prepare | measure => exact ⟨[], .nil, rfl⟩
    | evolve duration hR => exact ⟨[_], .cons hR .nil, rfl⟩

theorem replaced_circuit {c d : Circuit κ} : Replaced R c d ↔ RelatedCircuits R c d := by
  have hstatements {ss ts : List (Statement κ)} :
      Replaced R ss ts ↔ List.Forall₂ (RelatedStatements R) ss ts := by
    rw [replaced_list]
    exact forall₂_iff fun _ _ => replaced_statement
  constructor
  · rintro ⟨xs, hxs, rfl⟩
    exact ⟨rfl, hstatements.mp ⟨xs, hxs, rfl⟩, rfl, rfl⟩
  · obtain ⟨name, statements, qubits?, modes?⟩ := d
    rintro ⟨rfl, h, rfl, rfl⟩
    obtain ⟨xs, hxs, rfl⟩ := hstatements.mpr h
    exact ⟨xs, hxs, rfl⟩

end Replaced

variable [OrderKey κ]

/--
A circuit, a list of operators or named operators have a canonical form if each of the operators in
them has one. It is the value with these in their places, and all else as it was.
-/
theorem canonicalize_one_by_one (s : Settings ρ) :
    (∀ c : Circuit κ,
      ((∃ d, canonicalize κ s c = .ok d) ↔
        ∀ g ∈ c.gates, ∃ v, canonicalize κ s g.hamiltonian = .ok v) ∧
      ∀ d, canonicalize κ s c = .ok d ↔
        RelatedCircuits (fun x y => canonicalize κ s x = .ok y) c d) ∧
    (∀ as : List (Operator κ),
      ((∃ bs, canonicalize κ s as = .ok bs) ↔ ∀ a ∈ as, ∃ v, canonicalize κ s a = .ok v) ∧
      ∀ bs, canonicalize κ s as = .ok bs ↔
        List.Forall₂ (fun a b => canonicalize κ s a = .ok b) as bs) ∧
    ∀ as : Named (Operator κ),
      ((∃ bs, canonicalize κ s as = .ok bs) ↔ ∀ a ∈ as, ∃ v, canonicalize κ s a.2 = .ok v) ∧
      ∀ bs, canonicalize κ s as = .ok bs ↔
        List.Forall₂ (fun a b => b.1 = a.1 ∧ canonicalize κ s a.2 = .ok b.2) as bs := by
  refine ⟨fun c => ?_, fun as => ?_, fun as => ?_⟩
  · obtain ⟨hexists, hform⟩ := canonicalize_replaced Circuit.levels_le s c
    rw [operators_circuit, List.forall_mem_map] at hexists
    exact ⟨hexists, fun d => (hform d).trans replaced_circuit⟩
  · obtain ⟨hexists, hform⟩ :=
      canonicalize_replaced (κ := κ) (α := List (Operator κ)) (by decide : 1 ≤ growth) s as
    rw [operators_list] at hexists
    refine ⟨hexists, fun bs => (hform bs).trans ?_⟩
    rw [replaced_list]
    exact forall₂_iff fun _ _ => replaced_operator
  · obtain ⟨hexists, hform⟩ := canonicalize_replaced Circuit.levels_named_le s as
    rw [operators_named, List.forall_mem_map] at hexists
    refine ⟨hexists, fun bs => (hform bs).trans ?_⟩
    rw [replaced_list]
    exact forall₂_iff fun _ _ => replaced_named.trans (and_congr_right fun _ => replaced_operator)

end Canonical

end SpinBoson
