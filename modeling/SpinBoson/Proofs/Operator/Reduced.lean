import Mathlib.Tactic.Ring
import SpinBoson.Proofs.Operator.Coefficients
import SpinBoson.Proofs.Operator.Distributed

/-!
Repeated multiplying out of Pauli operators ends with sums of tensor chains, each place of which is a
Pauli operator or a word of ladder operators.
-/
namespace SpinBoson.Operator

open Pass

variable {κ ρ : Type} [RealScalar ρ] [Scalar κ ρ]

/-! Multiplying out makes an operator lighter -/

/-- Products weigh the product of what their operands weigh, and coefficients nothing. -/
def reduction : Weighing where
  spin _ := 2
  mode := 2
  bin op m n :=
    match op with
    | .mul => m * n
    | _ => m + n + 1
  scale m := m

theorem reduction_strict : reduction.Strict where
  spin_pos _ := Nat.two_pos
  mode_pos := Nat.two_pos
  bin_pos op {m n} hm hn := by
    cases op with
    | mul => exact Nat.mul_pos hm hn
    | add | sub | kron => simp only [reduction]; omega
  scale_pos h := h
  bin_left op {m m' n} h hn := by
    cases op with
    | mul => exact Nat.mul_lt_mul_of_pos_right h hn
    | add | sub | kron => simp only [reduction]; omega
  bin_right op {m n n'} h hm := by
    cases op with
    | mul => exact Nat.mul_lt_mul_of_pos_left h hm
    | add | sub | kron => simp only [reduction]; omega
  scale_lt h := h

section Weights

omit [RealScalar ρ] [Scalar κ ρ]

theorem reduction_mul (a b : Operator κ) :
    reduction.weigh (mul a b) = reduction.weigh a * reduction.weigh b := rfl

theorem reduction_kron (a b : Operator κ) :
    reduction.weigh (kron a b) = reduction.weigh a + reduction.weigh b + 1 := rfl

theorem reduction_kronFactors (a : Operator κ) :
    reduction.weigh a + 1 = (a.kronFactors.map fun x => reduction.weigh x + 1).sum := by
  induction a using operands_induction .kron with
  | single a ha => simp [kronFactors, ha]
  | bin a b iha ihb =>
    rw [kronFactors, operands_bin_self, List.map_append, List.sum_append, ← iha, ← ihb,
      reduction_kron]
    omega

theorem reduction_kronChain {as : List (Operator κ)} {b : Operator κ}
    (h : kronChain? as = some b) :
    reduction.weigh b + 1 = (as.map fun x => reduction.weigh x + 1).sum := by
  induction h using leftNested?_induction with
  | single a => simp
  | append as b a _ ih =>
    rw [List.map_append, List.sum_append, ← ih, reduction_kron, List.map_singleton,
      List.sum_singleton]
    omega

/-- Of at least two places, the products weigh less than the product. -/
theorem places_lighter (ps : List (Nat × Nat)) (hpos : ∀ p ∈ ps, 0 < p.1 ∧ 0 < p.2)
    (hlen : 2 ≤ ps.length) {m n : Nat} (hm : m + 1 = (ps.map fun p => p.1 + 1).sum)
    (hn : n + 1 = (ps.map fun p => p.2 + 1).sum) :
    (ps.map fun p => p.1 * p.2 + 1).sum < m * n + 1 := by
  -- with nothing taken off, a single place would do
  have key : ∀ qs : List (Nat × Nat), (∀ p ∈ qs, 0 < p.1 ∧ 0 < p.2) →
      (qs.map fun p => p.1 * p.2 + 1).sum ≤
        (qs.map fun p => p.1 + 1).sum * (qs.map fun p => p.2 + 1).sum := by
    intro qs hqs
    induction qs with
    | nil => simp
    | cons q qs ih =>
      have h := ih fun p hp => hqs p (List.mem_cons_of_mem _ hp)
      simp only [List.map_cons, List.sum_cons]
      generalize (qs.map fun p => p.1 + 1).sum = x at h ⊢
      generalize (qs.map fun p => p.2 + 1).sum = y at h ⊢
      calc
        q.1 * q.2 + 1 + (qs.map fun p => p.1 * p.2 + 1).sum ≤ q.1 * q.2 + 1 + x * y := by omega
        _ ≤ q.1 * q.2 + 1 + x * y + (q.1 + q.2 + (q.1 + 1) * y + x * (q.2 + 1)) :=
          Nat.le_add_right _ _
        _ = (q.1 + 1 + x) * (q.2 + 1 + y) := by ring
  match ps, hlen with
  | p :: q :: rest, _ =>
    have hp := hpos p List.mem_cons_self
    have h := key (q :: rest) fun r hr => hpos r (List.mem_cons_of_mem _ hr)
    have hq := (hpos q (List.mem_cons_of_mem _ List.mem_cons_self))
    simp only [List.map_cons, List.sum_cons] at h hm hn ⊢
    generalize (rest.map fun p => p.1 + 1).sum = x at h hm
    generalize (rest.map fun p => p.2 + 1).sum = y at h hn
    obtain rfl : m = p.1 + (q.1 + 1 + x) := by omega
    obtain rfl : n = p.2 + (q.2 + 1 + y) := by omega
    nlinarith

theorem mulPlaces_lighter {a b c : Operator κ} (h : mulPlaces? a b = some c) :
    reduction.weigh c < reduction.weigh (mul a b) := by
  obtain ⟨hlen, htwo, _, hchain⟩ := mulPlaces_eq_some h
  have hc := reduction_kronChain hchain
  have hfst := List.map_fst_zip (Nat.le_of_eq hlen)
  have hsnd := List.map_snd_zip (Nat.le_of_eq hlen.symm)
  have ha := reduction_kronFactors a
  have hb := reduction_kronFactors b
  rw [← hfst, List.map_map] at ha
  rw [← hsnd, List.map_map] at hb
  have hlt := places_lighter ((a.kronFactors.zip b.kronFactors).map fun p =>
    (reduction.weigh p.1, reduction.weigh p.2)) (by
      intro p hp
      obtain ⟨q, _, rfl⟩ := List.mem_map.mp hp
      exact ⟨reduction_strict.weigh_pos _, reduction_strict.weigh_pos _⟩)
    (by rw [List.length_map, List.length_zip]; omega) (by rw [List.map_map]; exact ha)
    (by rw [List.map_map]; exact hb)
  rw [List.map_map] at hc hlt
  rw [reduction_mul]
  exact Nat.lt_of_succ_lt_succ (hc.trans_lt hlt)

end Weights

theorem reduction_ofPhase (r : Phase × Pauli) :
    reduction.weigh (ofPhase r : Operator κ) = 2 := by
  obtain ⟨phase, p⟩ := r
  cases phase <;> rfl

theorem reducePauli_lighter (a : Operator κ) :
    a.reducePauli = a ∨ reduction.weigh a.reducePauli < reduction.weigh a := by
  unfold reducePauli
  split
  · right
    rw [reduction_ofPhase]
    simp [Weighing.weigh, reduction]
  · rename_i x y _
    cases h : mulPlaces? x y with
    | none => exact .inl rfl
    | some c => exact .inr (mulPlaces_lighter h)
  · exact .inl rfl

theorem gatherCoeffs_le_reduction (a : Operator κ) :
    reduction.weigh a.gatherCoeffs ≤ reduction.weigh a := by
  unfold gatherCoeffs
  split
  · exact Nat.le_refl _
  · unfold liftScale
    split <;> exact Nat.le_refl _
  · unfold liftScale
    split <;> exact Nat.le_refl _
  · exact Nat.le_refl _

/-- Where nothing is left to multiply out, a step changes nothing. -/
theorem reducePauli_of_reduced {a : Operator κ} (h : a.isPauliReduced = true) :
    a.reducePauli = a := by
  unfold reducePauli
  split
  · cases h
  · rename_i x y _
    have hplaces : mulPlaces? x y = none := by
      rw [Option.eq_none_iff_forall_ne_some]
      intro c hc
      obtain ⟨_, htwo, _⟩ := mulPlaces_eq_some hc
      have hkron : x.isKron = false := by
        simp only [isPauliReduced, Bool.and_eq_true, Bool.not_eq_true'] at h
        exact h.1.1.1
      rw [kronFactors_of_not_kron hkron] at htwo
      simp at htwo
    rw [hplaces]
    rfl
  · rfl

/-! Nothing becomes undistributed -/

/-- Whether a step keeps sums above products. -/
def KeepsDistributed (a b : Operator κ) : Prop :=
  (a.AllNodes fun x => x.isDistributed = true) →
    (b.AllNodes fun x => x.isDistributed = true) ∧ b.isSum = a.isSum

section Keeps

omit [RealScalar ρ] [Scalar κ ρ]

theorem keepsDistributed_congruence : Congruence (KeepsDistributed (κ := κ)) where
  refl _ h := ⟨h, rfl⟩
  trans hab hbc h := by
    obtain ⟨hb, heq⟩ := hab h
    obtain ⟨hc, heq'⟩ := hbc hb
    exact ⟨hc, heq'.trans heq⟩
  bin {op a a' b b'} ha hb h := by
    obtain ⟨ha', heqa⟩ := ha h.2.1
    obtain ⟨hb', heqb⟩ := hb h.2.2
    refine ⟨⟨?_, ha', hb'⟩, by cases op <;> rfl⟩
    have hroot := h.1
    cases op with
    | add => rfl
    | sub => simp [isDistributed] at hroot
    | mul | kron => simpa [isDistributed, heqa, heqb] using hroot
  scale {c a a'} ha h := by
    obtain ⟨ha', heqa⟩ := ha h.2
    have hroot := h.1
    exact ⟨⟨by simpa [isDistributed, heqa] using hroot, ha'⟩, rfl⟩

theorem distributed_kronFactors {a : Operator κ}
    (h : a.AllNodes fun x => x.isDistributed = true) (hsum : a.isSum = false) :
    ∀ x ∈ a.kronFactors, (x.AllNodes fun y => y.isDistributed = true) ∧ x.isSum = false := by
  induction a using operands_induction .kron with
  | single a ha =>
    rw [kronFactors, ha, List.forall_mem_singleton]
    exact ⟨h, hsum⟩
  | bin a b iha ihb =>
    have hroot := h.1
    simp only [isDistributed, Bool.and_eq_true, Bool.not_eq_true'] at hroot
    rw [kronFactors, operands_bin_self, List.forall_mem_append]
    exact ⟨iha h.2.1 hroot.1, ihb h.2.2 hroot.2⟩

theorem distributed_kronChain {as : List (Operator κ)}
    (has : ∀ x ∈ as, (x.AllNodes fun y => y.isDistributed = true) ∧ x.isSum = false)
    {b : Operator κ} (h : kronChain? as = some b) :
    (b.AllNodes fun y => y.isDistributed = true) ∧ b.isSum = false := by
  induction h using leftNested?_induction with
  | single a => exact has a (List.mem_singleton_self a)
  | append as b a _ ih =>
    rw [List.forall_mem_append, List.forall_mem_singleton] at has
    obtain ⟨hdistributed, hsum⟩ := ih has.1
    refine ⟨⟨?_, hdistributed, has.2.1⟩, rfl⟩
    simp [isDistributed, hsum, has.2.2]

end Keeps

theorem keepsDistributed_gatherCoeffs (a : Operator κ) : KeepsDistributed a a.gatherCoeffs := by
  have liftScale_keeps {op : Op} (hop : op.IsProduct) (x y : Operator κ) :
      KeepsDistributed (bin op x y) (liftScale op x y) := by
    unfold liftScale
    split
    · rintro ⟨hroot, ⟨hscale, hx⟩, hy⟩
      rcases hop with rfl | rfl <;> simp_all [AllNodes, isDistributed, isSum]
    · rintro ⟨hroot, hx, hscale, hy⟩
      rcases hop with rfl | rfl <;> simp_all [AllNodes, isDistributed, isSum]
    · exact keepsDistributed_congruence.refl _
  unfold gatherCoeffs
  split
  · rintro ⟨_, hroot, hx⟩
    exact ⟨⟨hroot, hx⟩, rfl⟩
  · exact liftScale_keeps (.inl rfl) _ _
  · exact liftScale_keeps (.inr rfl) _ _
  · exact keepsDistributed_congruence.refl _

theorem keepsDistributed_reducePauli (a : Operator κ) : KeepsDistributed a a.reducePauli := by
  unfold reducePauli
  split
  · rename_i p q
    intro _
    cases p.mul q with
    | mk phase r => cases phase <;> simp [ofPhase, AllNodes, isDistributed, isSum]
  · rename_i x y _
    rintro ⟨hroot, hx, hy⟩
    cases h : mulPlaces? x y with
    | none => exact ⟨⟨hroot, hx, hy⟩, rfl⟩
    | some c =>
      simp only [isDistributed, Bool.and_eq_true, Bool.not_eq_true'] at hroot
      refine distributed_kronChain (fun z hz => ?_) (mulPlaces_eq_some h).2.2.2
      obtain ⟨p, hp, rfl⟩ := List.mem_map.mp hz
      have hmem := List.of_mem_zip hp
      obtain ⟨h1, hs1⟩ := distributed_kronFactors hx hroot.1 _ hmem.1
      obtain ⟨h2, hs2⟩ := distributed_kronFactors hy hroot.2 _ hmem.2
      exact ⟨⟨by simp [isDistributed, hs1, hs2], h1, h2⟩, rfl⟩
  · exact keepsDistributed_congruence.refl _

/-! Signatures -/

/-- Whether a step keeps the signature of an operator that has one. -/
def KeepsSignature (a b : Operator κ) : Prop :=
  ∀ s, a.signature = .ok s → b.signature = .ok s

section Signatures

omit [RealScalar ρ] [Scalar κ ρ]

theorem keepsSignature_congruence : Congruence (KeepsSignature (κ := κ)) where
  refl _ _ h := h
  trans hab hbc s h := hbc s (hab s h)
  bin {op a a' b b'} ha hb s h := by
    cases op with
    | kron =>
      obtain ⟨l, r, hl, hr, rfl⟩ := signature_kron_iff.mp h
      exact signature_kron_iff.mpr ⟨l, r, ha l hl, hb r hr, rfl⟩
    | add | sub | mul =>
      obtain ⟨hl, hr⟩ := (signature_bin_iff (by decide)).mp h
      exact (signature_bin_iff (by decide)).mpr ⟨ha s hl, hb s hr⟩
  scale ha s h := ha s h

/-- The signature of a chain is that of its factors one after the other. -/
theorem signature_kronFactors {a : Operator κ} {s : Signature} (h : a.signature = .ok s) :
    ∃ ss, List.Forall₂ (fun x t => x.signature = .ok t) a.kronFactors ss ∧ ss.flatten = s := by
  induction a using operands_induction .kron generalizing s with
  | single a ha =>
    rw [kronFactors, ha]
    exact ⟨[s], .cons h .nil, by simp⟩
  | bin a b iha ihb =>
    obtain ⟨l, r, hl, hr, rfl⟩ := signature_kron_iff.mp h
    obtain ⟨ls, hls, rfl⟩ := iha hl
    obtain ⟨rs, hrs, rfl⟩ := ihb hr
    refine ⟨ls ++ rs, ?_, List.flatten_append⟩
    rw [kronFactors, operands_bin_self]
    exact List.rel_append hls hrs

theorem signature_kronChain {as : List (Operator κ)} {ss : List Signature}
    (has : List.Forall₂ (fun x t => x.signature = .ok t) as ss) {b : Operator κ}
    (h : kronChain? as = some b) : b.signature = .ok ss.flatten := by
  cases has with
  | nil => cases h
  | @cons a s as ss ha has =>
    cases h
    induction has generalizing a s with
    | nil => simpa using ha
    | @cons x t as ss hx has ih =>
      have hax : (kron a x).signature = .ok (s ++ t) := signature_kron_iff.mpr ⟨s, t, ha, hx, rfl⟩
      have := ih hax
      simpa using this

theorem keepsSignature_mulPlaces {a b c : Operator κ} (h : mulPlaces? a b = some c) :
    KeepsSignature (mul a b) c := by
  intro s hs
  obtain ⟨ha, _⟩ := (signature_bin_iff (by decide)).mp hs
  obtain ⟨hlen, _, hall, hchain⟩ := mulPlaces_eq_some h
  obtain ⟨ss, hss, rfl⟩ := signature_kronFactors ha
  refine signature_kronChain ?_ hchain
  rw [List.forall₂_map_left_iff]
  rw [← List.map_fst_zip (Nat.le_of_eq hlen), List.forall₂_map_left_iff] at hss
  refine List.Forall₂.imp (fun p t ht => ?_) ((List.forall₂_and_left _ _).mpr ⟨hall, hss⟩)
  obtain ⟨r, h1, h2⟩ := isOnSameSubsystems_iff.mp ht.1
  obtain rfl : r = t := Except.ok.inj (h1.symm.trans ht.2)
  exact (signature_bin_iff (by decide)).mpr ⟨h1, h2⟩

end Signatures

theorem keepsSignature_reducePauli (a : Operator κ) : KeepsSignature a a.reducePauli := by
  unfold reducePauli
  split
  · rename_i p q
    intro s h
    have hs := ((signature_bin_iff (by decide)).mp h).1
    cases p.mul q with
    | mk phase r => cases phase <;> exact hs
  · rename_i x y _
    cases h : mulPlaces? x y with
    | none => exact keepsSignature_congruence.refl _
    | some c => exact keepsSignature_mulPlaces h
  · exact keepsSignature_congruence.refl _

theorem keepsSignature_gatherCoeffs (a : Operator κ) : KeepsSignature a a.gatherCoeffs :=
  fun s h => (sameSignature_gatherCoeffs a s).mp h

/-! The shape of what is left -/

/-- Products of ladder operators, in any nesting. -/
inductive IsWord : Operator κ → Prop where
  | mode (l : Ladder) : IsWord (mode l)
  | mul {a b : Operator κ} : IsWord a → IsWord b → IsWord (mul a b)

/-- Tensor chains of Pauli operators and words, in any order and nesting. -/
inductive IsChain : Operator κ → Prop where
  | pauli (p : Pauli) : IsChain (pauli p)
  | word {a : Operator κ} : IsWord a → IsChain a
  | kron {a b : Operator κ} : IsChain a → IsChain b → IsChain (kron a b)

section Shapes

omit [RealScalar ρ] [Scalar κ ρ]

theorem IsWord.isProduct {a : Operator κ} (h : a.IsWord) : a.IsProduct := by
  induction h with
  | mode l => exact .mode l
  | mul _ _ iha ihb => exact .mul iha ihb

theorem IsChain.isProduct {a : Operator κ} (h : a.IsChain) : a.IsProduct := by
  induction h with
  | pauli p => exact .pauli p
  | word h => exact h.isProduct
  | kron _ _ iha ihb => exact .kron iha ihb

theorem IsWord.signature {a : Operator κ} (h : a.IsWord) : a.signature = .ok [.mode] := by
  induction h with
  | mode => rfl
  | mul _ _ iha ihb => exact (signature_bin_iff (by decide)).mpr ⟨iha, ihb⟩

theorem IsWord.factorSubsystem {a : Operator κ} (h : a.IsWord) :
    a.factorSubsystem? = some .mode := by
  induction h with
  | mode => rfl
  | mul _ _ iha _ => exact iha

theorem IsWord.plain {a : Operator κ} (h : a.IsWord) : a.isKron = false ∧ a.isSpin = false := by
  cases h <;> exact ⟨rfl, rfl⟩

theorem IsWord.kronFactors {a : Operator κ} (h : a.IsWord) : a.kronFactors = [a] := by
  cases h <;> rfl

/-- A place of a chain. -/
def IsFactor (a : Operator κ) : Prop :=
  (∃ p, a = pauli p) ∨ a.IsWord

theorem IsFactor.signature {a : Operator κ} (h : a.IsFactor) :
    ∃ t, a.factorSubsystem? = some t ∧ a.signature = .ok [t] := by
  rcases h with ⟨p, rfl⟩ | h
  · exact ⟨.qubit, rfl, rfl⟩
  · exact ⟨.mode, h.factorSubsystem, h.signature⟩

theorem IsChain.factors {a : Operator κ} (h : a.IsChain) : ∀ x ∈ a.kronFactors, x.IsFactor := by
  induction h with
  | pauli p =>
    intro x hx
    exact .inl ⟨p, List.mem_singleton.mp hx⟩
  | word h =>
    intro x hx
    rw [h.kronFactors, List.mem_singleton] at hx
    exact .inr (hx ▸ h)
  | kron _ _ iha ihb =>
    intro x hx
    rw [Operator.kronFactors, operands_bin_self] at hx
    exact (List.mem_append.mp hx).elim (iha x) (ihb x)

theorem IsChain.cases_on_length {a : Operator κ} (h : a.IsChain) :
    a.IsFactor ∨ a.isKron = true ∧ 2 ≤ a.kronFactors.length := by
  cases h with
  | pauli p => exact .inl (.inl ⟨p, rfl⟩)
  | word h => exact .inl (.inr h)
  | @kron x y _ _ =>
    refine .inr ⟨rfl, ?_⟩
    have hx := List.length_pos_iff.mpr (operands_ne_nil .kron x)
    have hy := List.length_pos_iff.mpr (operands_ne_nil .kron y)
    rw [Operator.kronFactors, operands_bin_self, List.length_append]
    omega

/-- The signature of a chain has one subsystem for each factor. -/
theorem IsChain.signature_factors {a : Operator κ} (h : a.IsChain) {s : Signature}
    (hs : a.signature = .ok s) :
    List.Forall₂ (fun x t => x.signature = .ok [t]) a.kronFactors s := by
  obtain ⟨ss, hss, rfl⟩ := signature_kronFactors hs
  have hfactors := h.factors
  generalize a.kronFactors = xs at hss hfactors ⊢
  clear hs
  induction hss with
  | nil => exact .nil
  | @cons x t xs ts hx _ ih =>
    rw [List.forall_mem_cons] at hfactors
    obtain ⟨u, _, hu⟩ := hfactors.1.signature
    obtain rfl : [u] = t := Except.ok.inj (hu.symm.trans hx)
    rw [List.flatten_cons, List.singleton_append]
    exact .cons hu (ih hfactors.2)

theorem mulPlaces_isSome {a b : Operator κ} (ha : a.IsChain) (hb : b.IsChain) {s : Signature}
    (has : a.signature = .ok s) (hbs : b.signature = .ok s) (hlen : 2 ≤ a.kronFactors.length) :
    ∃ c, mulPlaces? a b = some c ∧ c.isKron = true := by
  have hfa := ha.signature_factors has
  have hfb := hb.signature_factors hbs
  have heq : a.kronFactors.length = b.kronFactors.length :=
    hfa.length_eq.trans hfb.length_eq.symm
  have hzip : (a.kronFactors.zip b.kronFactors).length = a.kronFactors.length := by
    rw [List.length_zip]
    omega
  have hall : ((a.kronFactors.zip b.kronFactors).all fun p => isOnSameSubsystems p.1 p.2) = true := by
    rw [List.all_eq_true]
    rintro ⟨x, y⟩ hp
    obtain ⟨i, hi, hget⟩ := List.getElem_of_mem hp
    rw [List.getElem_zip, Prod.mk.injEq] at hget
    have his : i < s.length := by
      rw [← hfa.length_eq]
      omega
    refine isOnSameSubsystems_iff.mpr ⟨[s.get ⟨i, his⟩], ?_, ?_⟩
    · rw [← hget.1]
      exact hfa.get _ his
    · rw [← hget.2]
      exact hfb.get _ his
  obtain ⟨p, q, rest, hps⟩ : ∃ p q rest, a.kronFactors.zip b.kronFactors = p :: q :: rest := by
    rcases h : a.kronFactors.zip b.kronFactors with _ | ⟨p, _ | ⟨q, rest⟩⟩
    · rw [h, List.length_nil] at hzip
      omega
    · rw [h, List.length_singleton] at hzip
      omega
    · exact ⟨p, q, rest, rfl⟩
  have hkron (rest : List (Operator κ)) (x y : Operator κ) :
      (rest.foldl kron (kron x y)).isKron = true := by
    induction rest generalizing x y with
    | nil => rfl
    | cons z rest ih => exact ih _ _
  refine ⟨_, ?_, hkron (rest.map fun p => mul p.1 p.2) (mul p.1 p.2) (mul q.1 q.2)⟩
  unfold mulPlaces?
  dsimp only
  rw [if_neg (by omega), if_pos hall, hps]
  rfl

end Shapes

/-- Two factors on one subsystem whose product is left alone are words. -/
theorem isWord_of_reduced {a b : Operator κ} (ha : a.IsFactor) (hb : b.IsFactor) {s : Signature}
    (has : a.signature = .ok s) (hbs : b.signature = .ok s)
    (hfixed : (mul a b).reducePauli = mul a b) : (mul a b).IsWord := by
  rcases ha with ⟨p, rfl⟩ | hwa <;> rcases hb with ⟨q, rfl⟩ | hwb
  · -- the product of two Pauli operators is smaller
    have hsize := congrArg size hfixed
    simp only [reducePauli] at hsize
    cases hpq : p.mul q with
    | mk phase r => cases phase <;> simp [ofPhase, hpq, size] at hsize
  · cases has.symm.trans (rfl : (pauli p : Operator κ).signature = .ok [.qubit])
    cases hbs.symm.trans hwb.signature
  · cases hbs.symm.trans (rfl : (pauli q : Operator κ).signature = .ok [.qubit])
    cases has.symm.trans hwa.signature
  · exact .mul hwa hwb

/-- A product in which nothing is left to multiply out is a chain. -/
theorem isChain_of_fixed {a : Operator κ} (h : a.IsProduct) {s : Signature}
    (hs : a.signature = .ok s) (hfixed : a.AllNodes fun x => x.reducePauli = x) : a.IsChain := by
  induction h generalizing s with
  | pauli p => exact .pauli p
  | mode l => exact .word (.mode l)
  | kron _ _ iha ihb =>
    obtain ⟨l, r, hl, hr, _⟩ := signature_kron_iff.mp hs
    exact .kron (iha hl hfixed.2.1) (ihb hr hfixed.2.2)
  | @mul a b _ _ iha ihb =>
    obtain ⟨has, hbs⟩ := (signature_bin_iff (by decide)).mp hs
    have ha := iha has hfixed.2.1
    have hb := ihb hbs hfixed.2.2
    have hroot : (mul a b).reducePauli = mul a b := hfixed.1
    rcases ha.cases_on_length with hfa | ⟨hkron, hlen⟩
    · have hfb : b.IsFactor := by
        rcases hb.cases_on_length with hfb | ⟨_, hlen⟩
        · exact hfb
        · obtain ⟨t, _, ht⟩ := hfa.signature
          obtain rfl : s = [t] := Except.ok.inj (has.symm.trans ht)
          rw [(hb.signature_factors hbs).length_eq, List.length_singleton] at hlen
          omega
      exact .word (isWord_of_reduced hfa hfb has hbs hroot)
    · obtain ⟨c, hc, hckron⟩ := mulPlaces_isSome ha hb has hbs hlen
      have hreduce : (mul a b).reducePauli = c := by
        cases a with
        | bin op x y =>
          unfold reducePauli
          simp only [hc, Option.getD_some]
        | spin | mode | scale => simp [isKron] at hkron
      rw [hreduce] at hroot
      rw [hroot] at hckron
      cases hckron

end SpinBoson.Operator
