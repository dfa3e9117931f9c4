import SpinBoson.Proofs.Operator.Checks
import SpinBoson.Proofs.Operator.Terms

/-! Walks over sums of terms: giving coefficients, sorting, and normalizing coefficients. -/
namespace SpinBoson.Operator

variable {κ ρ : Type} [RealScalar ρ] [Scalar κ ρ]

section

omit [RealScalar ρ] [Scalar κ ρ]

theorem isTermSum_add {s : Signature} {a b : Operator κ} :
    (add a b).IsTermSum s ↔ a.IsTermSum s ∧ b.IsTermSum s := by
  constructor
  · rintro ⟨ts, hterms, hts⟩
    rw [terms, operands_bin_self] at hterms
    obtain ⟨us, vs, rfl, hus, hvs⟩ := List.map_eq_append_iff.mp hterms.symm
    rw [List.forall_mem_append] at hts
    exact ⟨⟨us, hus.symm, hts.1⟩, vs, hvs.symm, hts.2⟩
  · rintro ⟨⟨us, hus, hnormal⟩, vs, hvs, hnormal'⟩
    refine ⟨us ++ vs, ?_, List.forall_mem_append.mpr ⟨hnormal, hnormal'⟩⟩
    rw [terms, operands_bin_self, List.map_append]
    exact congrArg₂ _ hus hvs

theorem IsTermSum.sumOf {s : Signature} {a : Operator κ} (h : a.IsTermSum s) :
    a.SumOf (IsArranged IsNormalWord s) := by
  induction a with
  | bin op x y ihx ihy =>
    cases op with
    | add =>
      obtain ⟨hx, hy⟩ := isTermSum_add.mp h
      exact ⟨ihx hx, ihy hy⟩
    | sub | mul | kron =>
      rcases h.cases with h | ⟨t, _, h⟩
      · cases h
      · cases h
  | spin | mode =>
    rcases h.cases with h | ⟨t, _, h⟩
    · cases h
    · cases h
  | scale c x =>
    rcases h.cases with h | ⟨t, ht, h⟩
    · cases h
    · cases h
      exact ht.arranged

end

/-! Coefficients for all terms -/

/-- Gives every term of a sum a coefficient. -/
def scaleTerms : Operator κ → Operator κ
  | add a b => add a.scaleTerms b.scaleTerms
  | a => a.scaleTerm

theorem down_scaleTerms {n : Nat} {a : Operator κ} (hn : a.height ≤ n) :
    a.down scaleTermsRule .first n = .ok a.scaleTerms := by
  induction n generalizing a with
  | zero => cases a <;> simp [height] at hn
  | succ n ih =>
    cases a with
    | spin | mode | scale => rfl
    | bin op a b =>
      cases op with
      | sub | mul | kron => rfl
      | add =>
        have ha := ih (a := a) (by simp only [height] at hn; omega)
        have hb := ih (a := b) (by simp only [height] at hn; omega)
        have hnode : (add a b).down scaleTermsRule .first (n + 1) =
            (add a b).mapOperands (Coeff.down scaleTermsRule .first n)
              (down scaleTermsRule .first n) := rfl
        rw [hnode, mapOperands, ha, hb]
        rfl

theorem walk_scaleTerms (a : Operator κ) :
    walk .pre (scaleTermsRule (κ := κ)) a = .ok a.scaleTerms := by
  obtain ⟨n, hn, hwalk⟩ := exists_walk_pre (scaleTermsRule (κ := κ)) a
  rw [hwalk, down_scaleTerms hn]

theorem scaleTerms_isTermSum {s : Signature} {a : Operator κ}
    (h : a.SumOf (IsArranged IsNormalWord s)) : a.scaleTerms.IsTermSum s := by
  have single {c : Coeff κ} {x : Operator κ} (hx : x.IsArranged IsNormalWord s) :
      (scale c x).IsTermSum s := by
    obtain ⟨key, hkey⟩ := isArranged_iff_key.mp hx
    exact ⟨[⟨key, c, x⟩], rfl, List.forall_mem_singleton.mpr hkey⟩
  induction a with
  | bin op a b iha ihb =>
    cases op with
    | add => exact isTermSum_add.mpr ⟨iha h.1, ihb h.2⟩
    | sub | mul | kron => exact single h
  | spin | mode => exact single h
  | scale c a => exact single h

theorem keepsCoeffs_scaleTerms {Q : Coeff κ → Prop} (hQ : Coeff.Hereditary Q) (a : Operator κ) :
    KeepsCoeffs Q a a.scaleTerms := by
  induction a with
  | bin op a b iha ihb =>
    cases op with
    | add => exact keepsCoeffs_congruence.bin iha ihb
    | sub | mul | kron => exact keepsCoeffs_scaleTerm hQ _
  | spin | mode | scale => exact keepsCoeffs_scaleTerm hQ _

theorem IsTermSum.isScaled {s : Signature} {a : Operator κ} (h : a.IsTermSum s) :
    a.AllVisited isSum fun x => (x.isSum || x.isScaled) = true := by
  induction a with
  | bin op x y ihx ihy =>
    cases op with
    | add =>
      obtain ⟨hx, hy⟩ := isTermSum_add.mp h
      exact ⟨rfl, fun _ => ⟨ihx hx, ihy hy⟩⟩
    | sub | mul | kron =>
      rcases h.cases with h | ⟨t, _, h⟩
      · cases h
      · cases h
  | spin | mode =>
    rcases h.cases with h | ⟨t, _, h⟩
    · cases h
    · cases h
  | scale c x => exact ⟨rfl, fun h => by cases h⟩

/-! Sorting -/

theorem IsProduct.sumFree {a : Operator κ} (h : a.IsProduct) : a.AllNodes fun x => x.isSum = false := by
  induction h with
  | pauli | mode => rfl
  | mul _ _ iha ihb | kron _ _ iha ihb => exact ⟨rfl, iha, ihb⟩

theorem sortedTermsViolation_of_not_sum {a : Operator κ} (h : a.isSum = false) :
    a.sortedTermsViolation? = none := by
  unfold sortedTermsViolation?
  split
  · cases h
  · rfl

theorem termsViolation_eq_none {s : Signature} {ts : List (KeyedTerm κ)}
    (hts : ∀ t ∈ ts, t.IsNormal s) (hinc : Increasing ts) {previous : Option TermKey}
    (hprev : ∀ p ∈ previous, ∀ t ∈ ts, p.lt t.key = true) :
    termsViolation? previous (ts.map KeyedTerm.operator) = none := by
  induction ts generalizing previous with
  | nil => rfl
  | cons t ts ih =>
    rw [List.forall_mem_cons] at hts
    obtain ⟨ht, hrest⟩ := List.pairwise_cons.mp hinc
    have hany : (previous.any fun p => t.key.le p) = false := by
      cases previous with
      | none => rfl
      | some p => exact TermKey.not_le_of_lt (hprev p rfl t (by simp))
    rw [List.map_cons, termsViolation?, hts.1.termKey]
    simp only [hany, Bool.false_eq_true, if_false]
    refine ih hts.2 hrest ?_
    rintro p ⟨⟩ u hu
    exact ht u.key (List.mem_map_of_mem hu)

theorem IsIncreasingSum.isSorted {s : Signature} {a : Operator κ} (h : a.IsIncreasingSum s) :
    a.AllVisited (fun x => !x.isSum) fun x => x.sortedTermsViolation? = none := by
  rcases h.isTermSum.cases with hsum | ⟨t, ht, rfl⟩
  · obtain ⟨x, y, rfl⟩ := isSum_iff.mp hsum
    obtain ⟨ts, hts, hinc, hnormal⟩ := h
    refine ⟨?_, fun h => by cases h⟩
    change termsViolation? none (add x y).terms = none
    rw [terms_of_sum hts]
    exact termsViolation_eq_none hnormal hinc (by simp)
  · refine ⟨rfl, fun _ => AllNodes.allVisited ?_ _⟩
    exact ht.isChain.isProduct.sumFree.imp fun _ => sortedTermsViolation_of_not_sum

section

variable [OrderKey κ]

/-- Where sorting leaves a sum, or a scaled operator without sums, the walk sorts once. -/
theorem walk_sortTerms_once {s : Settings ρ} {a b : Operator κ} (h : a.sortTerms s = .ok b)
    (hb : b.isSum = true ∨ ∃ c x, b = scale c x ∧ x.AllNodes fun y => y.isSum = false) :
    walk .pre (sortTermsRule (κ := κ) s) a = .ok b := by
  obtain ⟨n, hn, hwalk⟩ := exists_walk_pre (sortTermsRule (κ := κ) s) a
  rw [hwalk]
  match n with
  | 0 => cases a <;> simp [height] at hn
  | n + 1 =>
    have hrule : (sortTermsRule (κ := κ) s).operator a = .ok b := h
    rcases hb with hsum | ⟨c, x, rfl, hx⟩
    · have hdescends : (sortTermsRule (κ := κ) s).descends b = false := by
        simp [sortTermsRule, Rule.descending, hsum]
      simp only [down, hrule, ok_bind, hdescends]
      rfl
    · have hchain : x.down (sortTermsRule s) .first n = .ok x :=
        down_of_allVisited rfl
          (AllNodes.allVisited (hx.imp fun _ => sortTerms_of_not_sum) _) n
      simp only [down, hrule, ok_bind, mapOperands]
      rw [Coeff.down_of_coeff_pure rfl, hchain]
      rfl

/-- On a sum of terms the walk sorts once. -/
theorem walk_sortTerms {s : Settings ρ} {sig : Signature} {a b : Operator κ}
    (h : a.sortTerms s = .ok b) (hb : b.IsTermSum sig) :
    walk .pre (sortTermsRule (κ := κ) s) a = .ok b := by
  refine walk_sortTerms_once h (hb.cases.imp_right ?_)
  rintro ⟨t, ht, rfl⟩
  exact ⟨t.coeff, t.chain, rfl, ht.isChain.isProduct.sumFree⟩

/-! Normalizing coefficients -/

theorem IsProduct.normalizeCoeff {a : Operator κ} (h : a.IsProduct) (s : Settings ρ) :
    a.up (normalizeCoeffRule s) = .ok a := by
  have hc : (normalizeCoeffRule (κ := κ) s).coeff = pure := rfl
  refine up_of_allNodes (fun c _ => Coeff.up_of_coeff_pure hc c) ?_
  induction h with
  | pauli | mode => rfl
  | mul _ _ iha ihb | kron _ _ iha ihb => exact ⟨rfl, iha, ihb⟩

/-- Coefficients in normal form are left alone. -/
theorem up_normalizeCoeff_of_normal {s : Settings ρ} {a : Operator κ}
    (h : a.CoeffsAll fun c => c.InNormalForm s.tolerance ∧ (c == c) = true) :
    a.up (normalizeCoeffRule s) = .ok a := by
  have hc : (normalizeCoeffRule (κ := κ) s).coeff = pure := rfl
  refine up_of_allNodes (fun c _ => Coeff.up_of_coeff_pure hc c) ?_
  induction a with
  | spin | mode => rfl
  | bin op x y ihx ihy =>
    obtain ⟨hx, hy⟩ := coeffsAll_bin.mp h
    exact ⟨rfl, ihx hx, ihy hy⟩
  | scale c x ih =>
    obtain ⟨⟨hform, hself⟩, hx⟩ := coeffsAll_scale.mp h
    refine ⟨?_, ih hx⟩
    have hn := Coeff.normalize_of_inNormalForm (s := s) hform hself
    simp only [normalizeCoeffRule, Rule.ofOperator, normalizeCoeff, hn, ok_bind, hself, if_true]
    rfl

variable [LawfulTest κ] [LawfulOrderKey κ]

theorem up_normalizeCoeff {s : Settings ρ} {sig : Signature} {t : KeyedTerm κ}
    (ht : t.IsNormal sig) (hread : t.coeff.Readable) (hset : t.coeff.Settles s) :
    ∃ n, t.coeff.normalize s = .ok n ∧ n.IsStable s.tolerance ∧
      t.operator.up (normalizeCoeffRule s) = .ok { t with coeff := n }.operator := by
  obtain ⟨n, hn, hstable, hsame⟩ := Coeff.normalize_settled hread hset
  refine ⟨n, hn, hstable, ?_⟩
  have hc : (normalizeCoeffRule (κ := κ) s).coeff = pure := rfl
  have hnode : (normalizeCoeffRule s).operator (scale t.coeff t.chain) = .ok (scale n t.chain) := by
    have hrule : (normalizeCoeffRule s).operator (scale t.coeff t.chain) =
        .ok (if n == t.coeff then scale t.coeff t.chain else scale n t.chain) := by
      simp only [normalizeCoeffRule, Rule.ofOperator, normalizeCoeff, hn, ok_bind]
      rfl
    rw [hrule]
    split
    · rename_i hbeq
      rw [hsame hbeq]
    · rfl
  simp only [KeyedTerm.operator, up]
  rw [Coeff.up_of_coeff_pure hc, ht.isChain.isProduct.normalizeCoeff]
  exact hnode

/-- The walk keeps the keys of an increasing sum and leaves all its coefficients in normal form. -/
theorem exists_normalizeCoeffs {s : Settings ρ} {sig : Signature} {a : Operator κ}
    (h : a.IsIncreasingSum sig) (hread : a.CoeffsAll Coeff.Readable)
    (hset : ∀ c ∈ a.coeffs, c.Settles s) :
    ∃ b, a.up (normalizeCoeffRule s) = .ok b ∧ b.IsIncreasingSum sig ∧
      b.CoeffsAll fun c => c.IsStable s.tolerance := by
  obtain ⟨ts, hsum, hinc, hts⟩ := h
  replace hread := (coeffsAll_keyed hts (terms_of_sum hsum)).mp hread
  replace hset := (coeffsAll_keyed (Q := fun c => c.Settles s) hts (terms_of_sum hsum)).mp hset
  have hmain : ∃ ns : List (KeyedTerm κ), ns.map KeyedTerm.key = ts.map KeyedTerm.key ∧
      (∀ n ∈ ns, n.IsNormal sig ∧ n.coeff.IsStable s.tolerance) ∧
      ∃ b, sum? (ns.map KeyedTerm.operator) = some b ∧ a.up (normalizeCoeffRule s) = .ok b := by
    clear hinc
    induction ts using List.reverseRecOn generalizing a with
    | nil => cases hsum
    | append_singleton ts t ih =>
      rw [List.forall_mem_append, List.forall_mem_singleton] at hts hread hset
      obtain ⟨n, -, hstable, hup⟩ := up_normalizeCoeff hts.2 hread.2 hset.2
      rw [List.map_append, List.map_singleton] at hsum
      rcases leftNested?_append_eq_some.mp hsum with ⟨hnil, rfl⟩ | ⟨x, hx, rfl⟩
      · obtain rfl := List.map_eq_nil_iff.mp hnil
        exact ⟨[{ t with coeff := n }], rfl, List.forall_mem_singleton.mpr ⟨hts.2, hstable⟩, _, rfl,
          hup⟩
      · obtain ⟨ns, hkeys, hns, y, hy, hupx⟩ := ih hx hts.1 hread.1 hset.1
        refine ⟨ns ++ [{ t with coeff := n }], ?_, ?_, add y { t with coeff := n }.operator, ?_, ?_⟩
        · rw [List.map_append, List.map_append, hkeys]
          rfl
        · exact List.forall_mem_append.mpr ⟨hns, List.forall_mem_singleton.mpr ⟨hts.2, hstable⟩⟩
        · rw [List.map_append, List.map_singleton]
          exact leftNested?_append_eq_some.mpr (.inr ⟨y, hy, rfl⟩)
        · simp only [up, hupx, hup]
          rfl
  obtain ⟨ns, hkeys, hns, b, hb, hup⟩ := hmain
  have hnormal := fun n hn => (hns n hn).1
  refine ⟨b, hup, ⟨ns, hb, by rwa [Increasing, hkeys], hnormal⟩, ?_⟩
  exact (coeffsAll_keyed hnormal (terms_of_sum hb)).mpr fun n hn => (hns n hn).2

omit [LawfulOrderKey κ] in
/-- Sums of normal forms that are not negligible are left alone. -/
theorem significant_of_up {s : Settings ρ} {sig : Signature} {a b : Operator κ}
    (h : a.IsTermSum sig) (hlarge : a.IsSignificant s.tolerance)
    (hup : a.up (normalizeCoeffRule s) = .ok b) : b.IsSignificant s.tolerance := by
  intro hsum
  rcases h.cases with hasum | ⟨t, _, rfl⟩
  · replace hlarge := hlarge hasum
    rw [up_normalizeCoeff_of_normal fun c hc =>
      ⟨(hlarge c hc).1.normal, Coeff.beq_self_of_finite (hlarge c hc).1.finite⟩] at hup
    exact Except.ok.inj hup ▸ hlarge
  · -- a single term stays one
    obtain ⟨c, _, hup⟩ := bind_eq_ok.mp hup
    obtain ⟨x, _, hup⟩ := bind_eq_ok.mp hup
    obtain ⟨n, _, hup⟩ := bind_eq_ok.mp hup
    split at hup
    · cases hup
      cases hsum
    · cases hup
      cases hsum

end

end SpinBoson.Operator
