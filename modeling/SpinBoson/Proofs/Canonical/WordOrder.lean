import Mathlib.Data.List.Perm.Basic
import SpinBoson.Proofs.Canonical.Rest

/-!
Words of ladder operators. Repeated steps towards normal order end with all creations of a word,
then all its identities and then all its annihilations, and repeated pruning leaves the identities
out.
-/
namespace SpinBoson

/-- So many creations, then so many identities, then so many annihilations. -/
def Ladder.blocks (creations identities annihilations : Nat) : List Ladder :=
  List.replicate creations .creation ++ List.replicate identities .identity ++
    List.replicate annihilations .annihilation

/-- Letters in normal order are those of each rank, one block after the other. -/
theorem Ladder.eq_blocks {letters : List Ladder}
    (h : letters.Pairwise fun l r => l.rank ≤ r.rank) :
    letters = Ladder.blocks (letters.count .creation) (letters.count .identity)
      (letters.count .annihilation) := by
  refine List.Perm.eq_of_pairwise ?_ h ?_ ?_
  · intro l r _ _ hlr hrl
    exact Ladder.rank_injective (Nat.le_antisymm hlr hrl)
  · simp [Ladder.blocks, List.pairwise_append, Ladder.rank]
  · rw [List.perm_iff_count]
    intro l
    cases l <;> simp [Ladder.blocks, List.count_append, List.count_replicate]

namespace Operator

open Canonical Pass

variable {κ ρ : Type} {a : Operator κ} {letters : List Ladder}

/-! Letters only change places -/

/-- Whether a step permutes the letters of a word. -/
def PermutesLetters (a b : Operator κ) : Prop :=
  a.IsWord → b.IsWord ∧ b.mulFactors.Perm a.mulFactors

theorem permutesLetters_congruence : Congruence (PermutesLetters (κ := κ)) where
  refl _ h := ⟨h, .refl _⟩
  trans hab hbc h := by
    obtain ⟨hb, hperm⟩ := hab h
    obtain ⟨hc, hperm'⟩ := hbc hb
    exact ⟨hc, hperm'.trans hperm⟩
  bin {op a a' b b'} ha hb h := by
    cases h with
    | mul hwa hwb =>
      obtain ⟨hwa', hperm⟩ := ha hwa
      obtain ⟨hwb', hperm'⟩ := hb hwb
      refine ⟨.mul hwa' hwb', ?_⟩
      simp only [mulFactors, operands_bin_self]
      exact hperm.append hperm'
  scale _ h := by cases h

theorem permutesLetters_normalOrder (a : Operator κ) : PermutesLetters a a.normalOrder := by
  refine fun h => ⟨(keepsChains_normalOrder a).2 h, ?_⟩
  unfold normalOrder
  split
  · simp only [mulFactors, operands_bin_self, List.append_assoc, List.Perm.refl]
  · split
    · simp only [mulFactors, operands_bin_self, List.append_assoc]
      exact .append_left _ List.perm_append_comm
    · exact .refl _
  · split
    · simp only [mulFactors, operands_bin_self]
      exact List.perm_append_comm
    · exact .refl _
  · exact .refl _

/-! The two repetitions -/

variable [RealScalar ρ] [Scalar κ ρ]

theorem exists_normalOrder_rest (h : a.IsWord) :
    ∃ b, (Pass.ofRule .post (normalOrderRule (κ := κ)) : Pass (Operator κ)).ComesToRestAt a b ∧
      b.mulFactors.Perm a.mulFactors ∧ b.IsOrderedWord := by
  have hkeep (x : Operator κ) (hx : x.IsWord ∧ x.mulFactors.Perm a.mulFactors) :
      (x.rewrite normalOrder).IsWord ∧ (x.rewrite normalOrder).mulFactors.Perm a.mulFactors := by
    obtain ⟨hword, hperm⟩ :=
      rewrite_related permutesLetters_congruence permutesLetters_normalOrder x hx.1
    exact ⟨hword, hperm.trans hx.2⟩
  obtain ⟨b, hrest, ⟨hword, hperm⟩, hfixed⟩ := exists_comesToRestAt_of_closer normalOrder_closer
    hkeep (fun _ hx => hx.1.isProduct.beq_self) ⟨h, .refl _⟩
  exact ⟨b, hrest, hperm,
    exists_word_of_check hword (hfixed.imp fun _ => normalOrderViolation_eq_none_iff.mpr)⟩

theorem prune_rest (letters : List Ladder) :
    (Pass.ofRule .post (pruneRule (κ := κ)) : Pass (Operator κ)).ComesToRestAt (word letters)
      (word (letters.filter (· ≠ .identity))) := by
  have hkeep (x : Operator κ) (hx : x = word letters ∨ x = word (letters.filter (· ≠ .identity))) :
      x.rewrite pruneIdentity = word (letters.filter (· ≠ .identity)) := by
    rcases hx with rfl | rfl
    · exact rewrite_pruneIdentity_word letters
    · rw [rewrite_pruneIdentity_word, List.filter_filter]
      simp
  obtain ⟨b, hrest, hb, hfixed⟩ := exists_comesToRestAt_of_measure
    (P := fun x => x = word letters ∨ x = word (letters.filter (· ≠ .identity)))
    (tested_weigh gathering)
    (run_ofOperator _ pruneIdentity) prune_lower (fun x hx => .inr (hkeep x hx))
    (fun x hx => by rcases hx with rfl | rfl <;> exact (isWord_word _).isProduct.beq_self) (.inl rfl)
  rwa [← hkeep b hb, hfixed]

/--
Repeated steps towards normal order end with the creations of a word, then its identities and then
its annihilations, all nested to the left. Repeated pruning of that word ends with its creations and
then its annihilations, which is the identity if it has neither.
-/
theorem word_normalOrder_prune (h : a.mulFactors = letters.map mode) :
    (Pass.ofRule .post (normalOrderRule (κ := κ)) : Pass (Operator κ)).ComesToRestAt a
      (word (Ladder.blocks (letters.count .creation) (letters.count .identity)
        (letters.count .annihilation))) ∧
    (Pass.ofRule .post (pruneRule (κ := κ)) : Pass (Operator κ)).ComesToRestAt
      (word (Ladder.blocks (letters.count .creation) (letters.count .identity)
        (letters.count .annihilation)))
      (word (Ladder.blocks (letters.count .creation) 0 (letters.count .annihilation))) := by
  constructor
  · obtain ⟨b, hrest, hperm, ordered, hne, rfl, hsorted⟩ :=
      exists_normalOrder_rest (isWord_of_letters fun x hx => by
        obtain ⟨l, -, hl⟩ := List.mem_map.mp (h ▸ hx)
        exact ⟨l, hl.symm⟩)
    rw [h, mulFactors_word hne] at hperm
    have hperm : ordered.Perm letters :=
      (List.map_perm_map_iff fun l r h => by cases h; rfl).mp hperm
    simp only [← hperm.count_eq]
    rwa [← Ladder.eq_blocks hsorted]
  · have hrest := prune_rest (κ := κ) (Ladder.blocks (letters.count .creation)
      (letters.count .identity) (letters.count .annihilation))
    simpa [Ladder.blocks, List.filter_append, List.filter_replicate] using hrest

/-- An annihilation on the left of an identity and a creation ends up on their right. -/
theorem word_normalOrder_prune_three :
    (Pass.ofRule .post (normalOrderRule (κ := ClosedNumber)) :
      Pass (Operator ClosedNumber)).ComesToRestAt
        (mul (mode .annihilation) (mul (mode .identity) (mode .creation)))
        (mul (mul (mode .creation) (mode .identity)) (mode .annihilation)) ∧
    (Pass.ofRule .post (pruneRule (κ := ClosedNumber)) :
      Pass (Operator ClosedNumber)).ComesToRestAt
        (mul (mul (mode .creation) (mode .identity)) (mode .annihilation))
        (mul (mode .creation) (mode .annihilation)) :=
  word_normalOrder_prune
    (rfl : mulFactors _ = [Ladder.annihilation, .identity, .creation].map mode)

end Operator

end SpinBoson
