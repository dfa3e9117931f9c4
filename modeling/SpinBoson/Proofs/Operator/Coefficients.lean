import SpinBoson.Canonical.NormalOrdered
import SpinBoson.Canonical.SortedTerms
import SpinBoson.Proofs.Operator.Signatures

/-! Properties that all coefficients of an operator keep when a rule acts on it. -/
namespace SpinBoson

variable {κ ρ : Type} [RealScalar ρ] [Scalar κ ρ]

/-- A property that literals have, and sums and products of coefficients with it. -/
structure Coeff.Hereditary (Q : Coeff κ → Prop) : Prop where
  lit : ∀ z, Q (.lit z)
  bin : ∀ {op c d}, Q c → Q d → Q (.bin op c d)

namespace Operator

/-- Whether all coefficients have a property. -/
def CoeffsAll (Q : Coeff κ → Prop) (a : Operator κ) : Prop :=
  ∀ c ∈ a.coeffs, Q c

section

omit [RealScalar ρ] [Scalar κ ρ]

variable {Q : Coeff κ → Prop}

@[simp]
theorem coeffsAll_spin (s : Spin) : (spin s : Operator κ).CoeffsAll Q := by
  simp [CoeffsAll, coeffs]

@[simp]
theorem coeffsAll_mode (l : Ladder) : (mode l : Operator κ).CoeffsAll Q := by
  simp [CoeffsAll, coeffs]

@[simp]
theorem coeffsAll_bin {op : Op} {a b : Operator κ} :
    (bin op a b).CoeffsAll Q ↔ a.CoeffsAll Q ∧ b.CoeffsAll Q := by
  simp only [CoeffsAll, coeffs, List.mem_append, or_imp, forall_and]

@[simp]
theorem coeffsAll_scale {c : Coeff κ} {a : Operator κ} :
    (scale c a).CoeffsAll Q ↔ Q c ∧ a.CoeffsAll Q := by
  simp only [CoeffsAll, coeffs, List.mem_cons, forall_eq_or_imp]

/-- Whether a step keeps a property of all coefficients. -/
def KeepsCoeffs (Q : Coeff κ → Prop) (a b : Operator κ) : Prop :=
  a.CoeffsAll Q → b.CoeffsAll Q

theorem keepsCoeffs_congruence : Congruence (KeepsCoeffs Q) where
  refl _ h := h
  trans hab hbc h := hbc (hab h)
  bin ha hb h := by
    rw [coeffsAll_bin] at h ⊢
    exact ⟨ha h.1, hb h.2⟩
  scale ha h := by
    rw [coeffsAll_scale] at h ⊢
    exact ⟨h.1, ha h.2⟩

theorem coeffsAll_iff_operands (op : Op) (a : Operator κ) :
    a.CoeffsAll Q ↔ ∀ x ∈ a.operands op, x.CoeffsAll Q := by
  induction a using operands_induction op with
  | single a ha => rw [ha, List.forall_mem_singleton]
  | bin a b iha ihb => rw [coeffsAll_bin, iha, ihb, operands_bin_self, List.forall_mem_append]

theorem coeffsAll_leftNested_iff {op : Op} {as : List (Operator κ)} {b : Operator κ}
    (h : leftNested? (bin op) as = some b) : b.CoeffsAll Q ↔ ∀ a ∈ as, a.CoeffsAll Q := by
  induction h using leftNested?_induction with
  | single a => rw [List.forall_mem_singleton]
  | append as b a _ ih =>
    rw [coeffsAll_bin, ih, List.forall_mem_append, List.forall_mem_singleton]

theorem keepsCoeffs_gatherQubits (a : Operator κ) : KeepsCoeffs Q a a.gatherQubits := by
  unfold gatherQubits
  split
  · simp only [KeepsCoeffs, coeffsAll_bin]
    tauto
  · split
    · simp only [KeepsCoeffs, coeffsAll_bin]
      tauto
    · exact id
  · split
    · simp only [KeepsCoeffs, coeffsAll_bin]
      tauto
    · exact id
  · exact id

theorem keepsCoeffs_normalOrder (a : Operator κ) : KeepsCoeffs Q a a.normalOrder := by
  unfold normalOrder
  split
  · simp only [KeepsCoeffs, coeffsAll_bin]
    tauto
  · split
    · simp only [KeepsCoeffs, coeffsAll_bin]
      tauto
    · exact id
  · split
    · simp only [KeepsCoeffs, coeffsAll_bin]
      tauto
    · exact id
  · exact id

theorem keepsCoeffs_pruneIdentity (a : Operator κ) : KeepsCoeffs Q a a.pruneIdentity := by
  unfold pruneIdentity
  split
  · simp only [KeepsCoeffs, coeffsAll_bin]
    tauto
  · simp only [KeepsCoeffs, coeffsAll_bin]
    tauto
  · exact id

end

variable {Q : Coeff κ → Prop} (hQ : Coeff.Hereditary Q)

include hQ

theorem keepsCoeffs_distribute (a : Operator κ) : KeepsCoeffs Q a a.distribute := by
  have overSum_keeps (op : Op) (x y : Operator κ) : KeepsCoeffs Q (bin op x y) (overSum op x y) := by
    unfold overSum
    split
    · simp only [KeepsCoeffs, coeffsAll_bin]
      tauto
    · simp only [KeepsCoeffs, coeffsAll_bin]
      tauto
    · exact id
  unfold distribute
  split
  · simp [KeepsCoeffs, ladderPauli, Coeff.ofReal, hQ.lit]
  · simp [KeepsCoeffs, ladderPauli, Coeff.ofReal, hQ.lit]
  · simp only [KeepsCoeffs, coeffsAll_bin, coeffsAll_scale]
    exact fun h => ⟨h.1, hQ.lit _, h.2⟩
  · exact overSum_keeps .mul _ _
  · exact overSum_keeps .kron _ _
  · simp only [KeepsCoeffs, coeffsAll_bin, coeffsAll_scale]
    tauto
  · exact id

theorem keepsCoeffs_gatherCoeffs (a : Operator κ) : KeepsCoeffs Q a a.gatherCoeffs := by
  have liftScale_keeps (op : Op) (x y : Operator κ) :
      KeepsCoeffs Q (bin op x y) (liftScale op x y) := by
    unfold liftScale
    split
    · simp only [KeepsCoeffs, coeffsAll_bin, coeffsAll_scale]
      tauto
    · simp only [KeepsCoeffs, coeffsAll_bin, coeffsAll_scale]
      tauto
    · exact id
  unfold gatherCoeffs
  split
  · simp only [KeepsCoeffs, coeffsAll_scale]
    rintro ⟨hc, hd, hx⟩
    refine ⟨?_, hx⟩
    unfold mergeCoeffs
    split
    · exact hQ.lit _
    · exact hQ.bin hc hd
  · exact liftScale_keeps .mul _ _
  · exact liftScale_keeps .kron _ _
  · exact id

theorem keepsCoeffs_reducePauli (a : Operator κ) : KeepsCoeffs Q a a.reducePauli := by
  unfold reducePauli
  split
  · rename_i p q
    intro _
    cases p.mul q with
    | mk phase r => cases phase <;> simp [ofPhase, hQ.lit]
  · rename_i x y _
    intro h
    cases hc : mulPlaces? x y with
    | none => exact h
    | some c =>
      rw [coeffsAll_bin] at h
      refine (coeffsAll_leftNested_iff (mulPlaces_eq_some hc).2.2.2).mpr fun z hz => ?_
      obtain ⟨p, hp, rfl⟩ := List.mem_map.mp hz
      have hmem := List.of_mem_zip hp
      exact coeffsAll_bin.mpr ⟨(coeffsAll_iff_operands .kron x).mp h.1 _ hmem.1,
        (coeffsAll_iff_operands .kron y).mp h.2 _ hmem.2⟩
  · exact id

theorem keepsCoeffs_scaleTerm (a : Operator κ) : KeepsCoeffs Q a a.scaleTerm := by
  unfold scaleTerm
  split
  · exact id
  · exact id
  · exact fun h => coeffsAll_scale.mpr ⟨hQ.lit _, h⟩

end Operator

end SpinBoson
