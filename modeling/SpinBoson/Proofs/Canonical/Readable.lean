import SpinBoson.Proofs.Canonical.Respect
import SpinBoson.Proofs.Operator.Terms

/-!
What has a canonical form has readable coefficients. No step drops a coefficient before its text has
been read, so each of them reaches normalization, which would fail on it.
-/
namespace SpinBoson

variable {κ ρ : Type} [RealScalar ρ] [Scalar κ ρ]

namespace Operator

/-- Whether all coefficients of an operator are readable if those of another one are. -/
def ReadableBefore (a b : Operator κ) : Prop :=
  b.CoeffsAll Coeff.Readable → a.CoeffsAll Coeff.Readable

theorem readableBefore_congruence : Congruence (ReadableBefore (κ := κ)) where
  refl _ h := h
  trans hab hbc h := hab (hbc h)
  bin ha hb h := by
    rw [coeffsAll_bin] at h ⊢
    exact ⟨ha h.1, hb h.2⟩
  scale ha h := by
    rw [coeffsAll_scale] at h ⊢
    exact ⟨h.1, ha h.2⟩

theorem readableBefore_distribute (a : Operator κ) : ReadableBefore a a.distribute := by
  have overSum_keeps (op : Op) (x y : Operator κ) : ReadableBefore (bin op x y) (overSum op x y) := by
    unfold overSum
    split
    · simp only [ReadableBefore, coeffsAll_bin]
      tauto
    · simp only [ReadableBefore, coeffsAll_bin]
      tauto
    · exact id
  unfold distribute
  split
  · simp [ReadableBefore]
  · simp [ReadableBefore]
  · simp only [ReadableBefore, coeffsAll_bin, coeffsAll_scale]
    tauto
  · exact overSum_keeps .mul _ _
  · exact overSum_keeps .kron _ _
  · simp only [ReadableBefore, coeffsAll_bin, coeffsAll_scale]
    tauto
  · exact id

theorem readable_of_mergeCoeffs {c d : Coeff κ} (h : (mergeCoeffs c d).Readable) :
    c.Readable ∧ d.Readable := by
  unfold mergeCoeffs at h
  split at h
  · exact ⟨Coeff.readable_lit _, Coeff.readable_lit _⟩
  · exact Coeff.readable_bin.mp h

theorem readableBefore_gatherCoeffs (a : Operator κ) : ReadableBefore a a.gatherCoeffs := by
  have liftScale_keeps (op : Op) (x y : Operator κ) :
      ReadableBefore (bin op x y) (liftScale op x y) := by
    unfold liftScale
    split
    · simp only [ReadableBefore, coeffsAll_bin, coeffsAll_scale]
      tauto
    · simp only [ReadableBefore, coeffsAll_bin, coeffsAll_scale]
      tauto
    · exact id
  unfold gatherCoeffs
  split
  · simp only [ReadableBefore, coeffsAll_scale]
    rintro ⟨hc, hx⟩
    obtain ⟨hc, hd⟩ := readable_of_mergeCoeffs hc
    exact ⟨hc, hd, hx⟩
  · exact liftScale_keeps .mul _ _
  · exact liftScale_keeps .kron _ _
  · exact id

theorem readableBefore_reducePauli (a : Operator κ) : ReadableBefore a a.reducePauli := by
  unfold reducePauli
  split
  · simp [ReadableBefore]
  · rename_i x y _
    intro h
    cases hc : mulPlaces? x y with
    | none => rwa [hc] at h
    | some c =>
      rw [hc, Option.getD_some] at h
      obtain ⟨hlen, -, -, hchain⟩ := mulPlaces_eq_some hc
      have hall := (coeffsAll_leftNested_iff hchain).mp h
      simp only [List.forall_mem_map, coeffsAll_bin] at hall
      rw [coeffsAll_bin, coeffsAll_iff_operands .kron x, coeffsAll_iff_operands .kron y]
      have hfst : (x.kronFactors.zip y.kronFactors).map (·.1) = x.kronFactors :=
        List.map_fst_zip hlen.le
      have hsnd : (x.kronFactors.zip y.kronFactors).map (·.2) = y.kronFactors :=
        List.map_snd_zip hlen.ge
      constructor
      · rw [← kronFactors, ← hfst, List.forall_mem_map]
        exact fun p hp => (hall p hp).1
      · rw [← kronFactors, ← hsnd, List.forall_mem_map]
        exact fun p hp => (hall p hp).2
  · exact id

omit [RealScalar ρ] [Scalar κ ρ] in
theorem coeffsAll_gatherQubits_iff {Q : Coeff κ → Prop} (a : Operator κ) :
    a.gatherQubits.CoeffsAll Q ↔ a.CoeffsAll Q := by
  unfold gatherQubits
  split
  · simp only [coeffsAll_bin]
    tauto
  · split
    · simp only [coeffsAll_bin]
      tauto
    · exact Iff.rfl
  · split
    · simp only [coeffsAll_bin]
      tauto
    · exact Iff.rfl
  · exact Iff.rfl

omit [RealScalar ρ] [Scalar κ ρ] in
theorem coeffsAll_normalOrder_iff {Q : Coeff κ → Prop} (a : Operator κ) :
    a.normalOrder.CoeffsAll Q ↔ a.CoeffsAll Q := by
  unfold normalOrder
  split
  · simp only [coeffsAll_bin]
    tauto
  · split
    · simp only [coeffsAll_bin]
      tauto
    · exact Iff.rfl
  · split
    · simp only [coeffsAll_bin]
      tauto
    · exact Iff.rfl
  · exact Iff.rfl

omit [RealScalar ρ] [Scalar κ ρ] in
theorem coeffsAll_pruneIdentity_iff {Q : Coeff κ → Prop} (a : Operator κ) :
    a.pruneIdentity.CoeffsAll Q ↔ a.CoeffsAll Q := by
  unfold pruneIdentity
  split
  · simp
  · simp
  · exact Iff.rfl

theorem readableBefore_scaleTerm (a : Operator κ) : ReadableBefore a a.scaleTerm := by
  unfold scaleTerm
  split
  · exact id
  · exact id
  · exact fun h => (coeffsAll_scale.mp h).2

theorem keptByRules_readableBefore : Canonical.KeptByRules (ReadableBefore (κ := κ)) where
  congruence := readableBefore_congruence
  distribute := readableBefore_distribute
  gatherCoeffs := readableBefore_gatherCoeffs
  reducePauli := readableBefore_reducePauli
  gatherQubits a := (coeffsAll_gatherQubits_iff a).mp
  normalOrder a := (coeffsAll_normalOrder_iff a).mp
  pruneIdentity a := (coeffsAll_pruneIdentity_iff a).mp
  scaleTerm := readableBefore_scaleTerm

/-! Sorting and normalizing -/

section

omit [RealScalar ρ] [Scalar κ ρ]

variable {Q : Coeff κ → Prop}

theorem coeffsAll_of_mapM {op : Op} {β : Type} {f : Operator κ → Option β} {a : Operator κ}
    {bs : List β} (hf : ∀ x b, f x = some b → x.CoeffsAll Q)
    (h : (a.operands op).mapM f = some bs) : a.CoeffsAll Q := by
  refine (coeffsAll_iff_operands op a).mpr fun x hx => ?_
  obtain ⟨b, -, hb⟩ := exists_of_forall₂ (mapM_eq_some.mp h).flip hx
  exact hf x b hb

theorem coeffsAll_of_factorKey {a : Operator κ} {f : FactorKey} (h : a.factorKey? = some f) :
    a.CoeffsAll Q := by
  unfold factorKey? at h
  split at h
  · simp
  · obtain ⟨letters, hword, -⟩ := Option.map_eq_some_iff.mp h
    refine coeffsAll_of_mapM (fun x l hl => ?_) hword
    cases x with
    | mode => simp
    | spin | bin | scale => cases hl

/-- A term with a key has no coefficient but the one in front. -/
theorem coeffsAll_of_keyed [RealScalar ρ] [Scalar κ ρ] {a : Operator κ} {t : KeyedTerm κ}
    (h : a.keyed? = some t) (hQ : Q t.coeff) : a.CoeffsAll Q := by
  unfold keyed? at h
  split at h
  · obtain ⟨key, hkey, rfl⟩ := Option.map_eq_some_iff.mp h
    exact coeffsAll_scale.mpr ⟨hQ, coeffsAll_of_mapM (fun _ _ => coeffsAll_of_factorKey) hkey⟩
  · rename_i hscale
    obtain ⟨key, hkey, rfl⟩ := Option.map_eq_some_iff.mp h
    cases a with
    | scale c x => exact absurd rfl (hscale c x)
    | spin | mode | bin => exact coeffsAll_of_mapM (fun _ _ => coeffsAll_of_factorKey) hkey

end

/-- Merging drops no coefficient. -/
theorem readable_of_mergeKeyed {ts : List (KeyedTerm κ)}
    (h : ∀ t ∈ mergeKeyed ts, t.coeff.Readable) : ∀ t ∈ ts, t.coeff.Readable := by
  have go (rest : List (KeyedTerm κ)) : ∀ t, (∀ u ∈ mergeKeyed.go t rest, u.coeff.Readable) →
      ∀ u ∈ t :: rest, u.coeff.Readable := by
    induction rest with
    | nil => exact fun t ht => ht
    | cons u rest ih =>
      intro t ht
      unfold mergeKeyed.go at ht
      split at ht
      · have hall := List.forall_mem_cons.mp (ih _ ht)
        obtain ⟨hcoeff, hcoeff'⟩ := Coeff.readable_bin.mp hall.1
        simp only [List.forall_mem_cons]
        exact ⟨hcoeff, hcoeff', hall.2⟩
      · obtain ⟨ht, hrest⟩ := List.forall_mem_cons.mp ht
        exact List.forall_mem_cons.mpr ⟨ht, ih u hrest⟩
  cases ts with
  | nil => exact h
  | cons t rest => exact go rest t h

variable [OrderKey κ]

theorem readable_of_sortedTerms {s : Settings ρ} {ts ns : List (KeyedTerm κ)}
    (h : sortedTerms s ts = .ok ns) : ∀ t ∈ ts, t.coeff.Readable := by
  have hmerged : ∀ t ∈ mergedTerms ts, t.coeff.Readable := by
    intro t ht
    obtain ⟨n, -, hn⟩ := exists_of_forall₂ (mapM_eq_ok.mp h).flip ht
    obtain ⟨c, hc, -⟩ := bind_eq_ok.mp hn
    exact Coeff.readable_of_normalize hc
  intro t ht
  exact readable_of_mergeKeyed hmerged t ((List.mergeSort_perm ts _).mem_iff.mpr ht)

theorem readableBefore_sortTerms {s : Settings ρ} {a b : Operator κ} (h : a.sortTerms s = .ok b) :
    ReadableBefore a b := by
  unfold sortTerms at h
  split at h
  · split at h
    · cases h
      exact id
    · rename_i ts hts
      obtain ⟨ns, hns, -⟩ := bind_eq_ok.mp h
      have hread := readable_of_sortedTerms hns
      refine fun _ => (coeffsAll_iff_operands .add _).mpr fun x hx => ?_
      obtain ⟨t, ht, hxt⟩ := exists_of_forall₂ (mapM_eq_some.mp hts).flip hx
      exact coeffsAll_of_keyed hxt (hread t ht)
  · cases h
    exact id

/-- A walk that normalizes reads all coefficients. -/
theorem readable_of_up_normalizeCoeff {s : Settings ρ} {a b : Operator κ}
    (h : a.up (normalizeCoeffRule s) = .ok b) : a.CoeffsAll Coeff.Readable := by
  have hc : (normalizeCoeffRule (κ := κ) s).coeff = pure := rfl
  induction a generalizing b with
  | spin | mode => simp
  | bin op x y ihx ihy =>
    obtain ⟨x', hx, h⟩ := bind_eq_ok.mp h
    obtain ⟨y', hy, -⟩ := bind_eq_ok.mp h
    exact coeffsAll_bin.mpr ⟨ihx hx, ihy hy⟩
  | scale c x ih =>
    simp only [up, Coeff.up_of_coeff_pure hc, pure_bind] at h
    obtain ⟨x', hx, h⟩ := bind_eq_ok.mp h
    obtain ⟨n, hn, -⟩ := bind_eq_ok.mp h
    exact coeffsAll_scale.mpr ⟨Coeff.readable_of_normalize hn, ih hx⟩

end Operator

namespace Canonical

open Operator Pass

variable [OrderKey κ]

/-- An operator with a canonical form has readable coefficients. -/
theorem readable_of_canonicalize {s : Settings ρ} {a v : Operator κ}
    (h : canonicalize κ s a = .ok v) : ∀ c ∈ a.coeffs, c.Readable := by
  have hR := readableBefore_congruence (κ := κ)
  rw [canonicalize, canonicalization_eq, run] at h
  obtain ⟨b, hb, h⟩ := runAll_append.mp h
  rw [completion, runAll] at h
  obtain ⟨c, hc, h⟩ := bind_eq_ok.mp h
  obtain ⟨d, hd, h⟩ := bind_eq_ok.mp h
  obtain ⟨n, hn, -⟩ := bind_eq_ok.mp h
  have hsort : (fixedPoint s.maxIterations (.ofRule .pre (sortTermsRule (κ := κ) s)) :
      Pass (Operator κ)).Respects ReadableBefore :=
    respects_pre hR rfl fun _ _ => readableBefore_sortTerms
  have hread : d.CoeffsAll Coeff.Readable := readable_of_up_normalizeCoeff hn
  have hcheck : ReadableBefore c d := run_related hR.refl hR.trans _ (respects_check_pre hR) hd
  have hsorted : ReadableBefore b c := run_related hR.refl hR.trans _ hsort hc
  have hexpanded : ReadableBefore a b :=
    runAll_related hR.refl hR.trans _ (expansion_respects keptByRules_readableBefore s) hb
  exact hexpanded (hsorted (hcheck hread))

end Canonical

end SpinBoson
