import SpinBoson.Operator.TermKey
import SpinBoson.Proofs.Operator.Chains

/-!
Words that are nested to the left, with their letters in normal order and no identity among several
letters.
-/
namespace SpinBoson

/-- The identity alone, or creations and then annihilations. -/
def Ladder.IsNormalWord (letters : List Ladder) : Prop :=
  letters = [.identity] ∨
    letters ≠ [] ∧ .identity ∉ letters ∧ letters.Pairwise fun l r => l.rank ≤ r.rank

namespace Operator

variable {κ ρ : Type}

/-- The left-nested product of some letters, or the identity if there are none. -/
def word (letters : List Ladder) : Operator κ :=
  (leftNested? mul (letters.map mode)).getD (mode .identity)

@[simp]
theorem word_nil : (word [] : Operator κ) = mode .identity := rfl

@[simp]
theorem word_singleton (l : Ladder) : (word [l] : Operator κ) = mode l := rfl

theorem word_append_singleton {letters : List Ladder} (h : letters ≠ []) (l : Ladder) :
    (word (letters ++ [l]) : Operator κ) = mul (word letters) (mode l) := by
  rw [word, List.map_append, List.map_singleton, leftNested?_append_singleton, word]
  cases hl : leftNested? mul (letters.map (mode (κ := κ))) with
  | none => exact absurd (List.map_eq_nil_iff.mp ((leftNested?_eq_none_iff _ _).mp hl)) h
  | some a => rfl

theorem isWord_of_letters {a : Operator κ} (h : ∀ x ∈ a.mulFactors, ∃ l, x = mode l) :
    a.IsWord := by
  refine of_operands .mul (fun _ _ => .mul) fun x hx => ?_
  obtain ⟨l, rfl⟩ := h x hx
  exact .mode l

theorem isWord_word (letters : List Ladder) : (word letters : Operator κ).IsWord := by
  induction letters using List.reverseRecOn with
  | nil => exact .mode _
  | append_singleton letters l ih =>
    by_cases h : letters = []
    · subst h
      exact .mode l
    · rw [word_append_singleton h]
      exact .mul ih (.mode l)

theorem mulFactors_word {letters : List Ladder} (h : letters ≠ []) :
    (word letters : Operator κ).mulFactors = letters.map mode := by
  induction letters using List.reverseRecOn with
  | nil => exact absurd rfl h
  | append_singleton letters l ih =>
    by_cases hnil : letters = []
    · subst hnil
      rfl
    · rw [word_append_singleton hnil, mulFactors, operands_bin_self, List.map_append]
      exact congrArg (· ++ [mode l]) (ih hnil)

theorem lastMulFactor_word (letters : List Ladder) (l : Ladder) :
    (word (letters ++ [l]) : Operator κ).lastMulFactor = mode l := by
  by_cases h : letters = []
  · subst h
    rfl
  · rw [word_append_singleton h]
    rfl

/-- A property holds at all nodes of a word if it holds where a letter is added. -/
theorem allNodes_word {V : Operator κ → Prop} {letters : List Ladder} (h : letters ≠ [])
    (hmode : ∀ l ∈ letters, V (mode l))
    (hmul : ∀ before l, before ≠ [] → before ++ [l] <+: letters →
      V (mul (word before) (mode l))) : (word letters).AllNodes V := by
  induction letters using List.reverseRecOn with
  | nil => exact absurd rfl h
  | append_singleton letters l ih =>
    by_cases hnil : letters = []
    · subst hnil
      exact hmode l (by simp)
    · rw [word_append_singleton hnil]
      refine ⟨hmul letters l hnil (List.prefix_refl _), ih hnil ?_ ?_, hmode l (by simp)⟩
      · exact fun x hx => hmode x (List.mem_append_left _ hx)
      · exact fun before x hb hpre => hmul before x hb (hpre.trans (List.prefix_append _ _))

/-! Normal order -/

section

variable [RealScalar ρ] [Scalar κ ρ]

/-- The check accepts exactly what a step leaves alone. -/
theorem normalOrderViolation_eq_none_iff {a : Operator κ} :
    a.normalOrderViolation? = none ↔ a.normalOrder = a := by
  -- letters of different ranks are not equal, so swapping them is a change
  have hne {l r : Ladder} (h : l.isAfter r = true) : mode (κ := κ) r ≠ mode l := by
    rintro ⟨⟩
    simp [Ladder.isAfter] at h
  unfold normalOrder
  split
  · rename_i x y z
    refine iff_of_false (by simp [normalOrderViolation?]) fun h => ?_
    have hsize := congrArg size (Operator.bin.inj h).2.2
    simp only [size] at hsize
    omega
  · rename_i p l r
    split
    · rename_i h
      refine iff_of_false (by simp [normalOrderViolation?, lastMulFactor, h]) fun heq => ?_
      exact hne h (Operator.bin.inj (Operator.bin.inj heq).2.1).2.2
    · rename_i h
      exact iff_of_true (by simp [normalOrderViolation?, lastMulFactor, h]) rfl
  · rename_i l r
    split
    · rename_i h
      refine iff_of_false (by simp [normalOrderViolation?, lastMulFactor, h]) fun heq => ?_
      exact hne h (Operator.bin.inj heq).2.1
    · rename_i h
      exact iff_of_true (by simp [normalOrderViolation?, lastMulFactor, h]) rfl
  · rename_i hmul hlast hmode
    refine iff_of_true ?_ rfl
    unfold normalOrderViolation?
    split
    · exact (hmul _ _ _ rfl).elim
    · rename_i x r _
      split
      · rename_i l heq
        unfold lastMulFactor at heq
        split at heq
        · subst heq
          exact (hlast _ _ _ rfl).elim
        · subst heq
          exact (hmode _ _ rfl).elim
      · rfl
    · rfl

/-- What the check accepts is nested to the left, with no letter after one of higher rank. -/
theorem normalOrderViolation_mul {a b : Operator κ} (hb : b.IsWord) :
    (mul a b).normalOrderViolation? = none ↔
      ∃ r, b = mode r ∧ ∀ l, a.lastMulFactor = mode l → l.rank ≤ r.rank := by
  cases hb with
  | mul => simp [normalOrderViolation?]
  | mode r =>
    cases hlast : a.lastMulFactor <;> simp [normalOrderViolation?, hlast, Ladder.isAfter]

/-- A word that the check accepts is nested to the left, with its letters in normal order. -/
theorem exists_word_of_check {a : Operator κ} (h : a.IsWord)
    (hcheck : a.AllNodes fun x => x.normalOrderViolation? = none) :
    ∃ letters : List Ladder, letters ≠ [] ∧ a = word letters ∧
      letters.Pairwise fun l r => l.rank ≤ r.rank := by
  induction h with
  | mode l => exact ⟨[l], by simp, rfl, List.pairwise_singleton _ _⟩
  | @mul a b _ hb iha _ =>
    obtain ⟨letters, hne, rfl, hsorted⟩ := iha hcheck.2.1
    obtain ⟨r, rfl, hlast⟩ := (normalOrderViolation_mul hb).mp hcheck.1
    refine ⟨letters ++ [r], by simp, (word_append_singleton hne r).symm, ?_⟩
    rcases List.eq_nil_or_concat letters with rfl | ⟨before, l, rfl⟩
    · exact absurd rfl hne
    · rw [List.concat_eq_append] at hsorted hlast ⊢
      have hlr := hlast l (lastMulFactor_word before l)
      refine List.pairwise_append.mpr ⟨hsorted, List.pairwise_singleton _ _, fun x hx y hy => ?_⟩
      rw [List.mem_singleton.mp hy]
      rcases List.mem_append.mp hx with hx | hx
      · exact ((List.pairwise_append.mp hsorted).2.2 x hx l (by simp)).trans hlr
      · rwa [List.mem_singleton.mp hx]

end

/-! Identities -/

theorem word_ne_identity {letters : List Ladder} (hne : letters ≠ [])
    (h : .identity ∉ letters) : (word letters : Operator κ) ≠ mode .identity := by
  intro heq
  have hfactors := mulFactors_word (κ := κ) hne
  rw [heq] at hfactors
  have hmem : (mode .identity : Operator κ) ∈ letters.map mode := by
    rw [← hfactors]
    exact List.mem_singleton_self _
  obtain ⟨l, hl, hmode⟩ := List.mem_map.mp hmem
  cases hmode
  exact h hl

theorem pruneIdentity_mul_identity {a : Operator κ} (ha : a ≠ mode .identity) :
    (mul a (mode .identity)).pruneIdentity = a := by
  unfold pruneIdentity
  split
  · rename_i heq
    cases heq
    exact absurd rfl ha
  · rename_i heq
    cases heq
    rfl
  · rename_i h
    exact (h a rfl).elim

theorem pruneIdentity_mul_of_ne {a b : Operator κ} (ha : a ≠ mode .identity)
    (hb : b ≠ mode .identity) : (mul a b).pruneIdentity = mul a b := by
  unfold pruneIdentity
  split
  · rename_i heq
    cases heq
    exact absurd rfl ha
  · rename_i heq
    cases heq
    exact absurd rfl hb
  · rfl

theorem hasIdentityFactor_mul_of_ne {a b : Operator κ} (ha : a ≠ mode .identity)
    (hb : b ≠ mode .identity) : (mul a b).hasIdentityFactor = false := by
  unfold hasIdentityFactor
  split
  · rename_i heq
    cases heq
    exact absurd rfl ha
  · rename_i heq
    cases heq
    exact absurd rfl hb
  · rfl

theorem hasIdentityFactor_eq_false_iff {a : Operator κ} :
    a.hasIdentityFactor = false ↔ a.pruneIdentity = a := by
  have hsize (x y : Operator κ) : x ≠ mul x y ∧ y ≠ mul x y := by
    constructor
    all_goals
      intro h
      have := congrArg size h
      simp only [size] at this
      omega
  unfold pruneIdentity
  split
  · rename_i b
    exact iff_of_false (by simp [hasIdentityFactor]) (hsize _ b).2
  · rename_i a _
    exact iff_of_false (by simp [hasIdentityFactor]) (hsize a _).1
  · rename_i hl hr
    refine iff_of_true ?_ rfl
    unfold hasIdentityFactor
    split
    · exact (hl _ rfl).elim
    · exact (hr _ rfl).elim
    · rfl
/-- One walk leaves out all identities. -/
theorem rewrite_pruneIdentity_word (letters : List Ladder) :
    (word letters : Operator κ).rewrite pruneIdentity =
      word (letters.filter (· ≠ .identity)) := by
  induction letters using List.reverseRecOn with
  | nil => rfl
  | append_singleton letters r ih =>
    by_cases hnil : letters = []
    · subst hnil
      cases r <;> rfl
    · rw [word_append_singleton hnil, rewrite, ih, List.filter_append]
      by_cases hkept : letters.filter (· ≠ .identity) = []
      · rw [hkept]
        cases r <;> rfl
      · have hne := word_ne_identity (κ := κ) hkept (by simp)
        cases r with
        | identity =>
          rw [List.filter_singleton]
          simpa [rewrite, pruneIdentity] using pruneIdentity_mul_identity hne
        | creation | annihilation =>
          refine (pruneIdentity_mul_of_ne hne (by simp [rewrite, pruneIdentity])).trans ?_
          exact (word_append_singleton hkept _).symm

/-! Words in normal order -/

/-- Words with at least one letter, all in normal order. -/
def IsOrderedWord (a : Operator κ) : Prop :=
  ∃ letters : List Ladder, letters ≠ [] ∧ a = word letters ∧
    letters.Pairwise fun l r => l.rank ≤ r.rank

def IsNormalWord (a : Operator κ) : Prop :=
  ∃ letters, Ladder.IsNormalWord letters ∧ a = word letters

variable {a : Operator κ}

theorem IsOrderedWord.isWord (h : a.IsOrderedWord) : a.IsWord := by
  obtain ⟨letters, _, rfl, _⟩ := h
  exact isWord_word letters

theorem IsNormalWord.isOrderedWord (h : a.IsNormalWord) : a.IsOrderedWord := by
  obtain ⟨letters, hletters, rfl⟩ := h
  rcases hletters with rfl | ⟨hne, _, hsorted⟩
  · exact ⟨[.identity], by simp, rfl, List.pairwise_singleton _ _⟩
  · exact ⟨letters, hne, rfl, hsorted⟩

theorem IsNormalWord.isWord (h : a.IsNormalWord) : a.IsWord :=
  h.isOrderedWord.isWord

theorem IsOrderedWord.prune (h : a.IsOrderedWord) : (a.rewrite pruneIdentity).IsNormalWord := by
  obtain ⟨letters, _, rfl, hsorted⟩ := h
  rw [rewrite_pruneIdentity_word]
  by_cases hkept : letters.filter (· ≠ .identity) = []
  · exact ⟨[.identity], .inl rfl, by rw [hkept]; rfl⟩
  · exact ⟨_, .inr ⟨hkept, by simp, hsorted.filter _⟩, rfl⟩

theorem IsOrderedWord.inNormalOrder [RealScalar ρ] [Scalar κ ρ] (h : a.IsOrderedWord) :
    a.AllNodes fun x => x.normalOrderViolation? = none := by
  obtain ⟨letters, hne, rfl, hsorted⟩ := h
  refine allNodes_word hne (fun _ _ => rfl) fun before l hbefore hpre => ?_
  rcases List.eq_nil_or_concat before with rfl | ⟨start, k, rfl⟩
  · exact absurd rfl hbefore
  · rw [List.concat_eq_append] at hpre ⊢
    have hkl : k.rank ≤ l.rank :=
      (List.pairwise_append.mp (hsorted.sublist hpre.sublist)).2.2 k (by simp) l (by simp)
    simp [normalOrderViolation?, lastMulFactor_word, Ladder.isAfter, hkl]

theorem IsNormalWord.isPruned (h : a.IsNormalWord) :
    a.AllNodes fun x => x.hasIdentityFactor = false := by
  obtain ⟨letters, rfl | ⟨hne, hid, _⟩, rfl⟩ := h
  · rfl
  · refine allNodes_word hne (fun _ _ => rfl) fun before l hbefore hpre => ?_
    have hword := word_ne_identity (κ := κ) hbefore fun h => hid (hpre.subset (by simp [h]))
    have hl : l ≠ .identity := by
      rintro rfl
      exact hid (hpre.subset (by simp))
    exact hasIdentityFactor_mul_of_ne hword (by simpa using hl)

theorem IsOrderedWord.leftNested [RealScalar ρ] [Scalar κ ρ] (h : a.IsOrderedWord) :
    a.AllNodes fun x => x.nestingViolation? = none := by
  obtain ⟨letters, hne, rfl, _⟩ := h
  exact allNodes_word hne (fun _ _ => rfl) fun _ _ _ _ => rfl

theorem IsWord.isPauliReduced (h : a.IsWord) : a.AllNodes fun x => x.isPauliReduced = true := by
  induction h with
  | mode => rfl
  | @mul a b ha hb iha ihb =>
    have hroot : (Operator.mul a b).isPauliReduced = true := by
      simp [Operator.isPauliReduced, ha.plain, hb.plain]
    exact ⟨hroot, iha, ihb⟩

theorem IsChain.isPauliReduced (h : a.IsChain) : a.AllNodes fun x => x.isPauliReduced = true := by
  induction h with
  | pauli => rfl
  | word h => exact h.isPauliReduced
  | kron _ _ iha ihb => exact ⟨rfl, iha, ihb⟩

theorem isChain_mul_iff {a b : Operator κ} : (mul a b).IsChain ↔ a.IsWord ∧ b.IsWord := by
  rw [← isWord_mul_iff]
  constructor
  · intro h
    cases h with
    | word h => exact h
  · exact .word

theorem keepsChains_normalOrder (a : Operator κ) : KeepsChains a a.normalOrder := by
  unfold normalOrder
  split
  · simp only [KeepsChains, isChain_mul_iff, isWord_mul_iff]
    tauto
  · split
    · simp only [KeepsChains, isChain_mul_iff, isWord_mul_iff]
      tauto
    · exact ⟨id, id⟩
  · split
    · simp only [KeepsChains, isChain_mul_iff, isWord_mul_iff]
      tauto
    · exact ⟨id, id⟩
  · exact ⟨id, id⟩

end Operator

end SpinBoson
