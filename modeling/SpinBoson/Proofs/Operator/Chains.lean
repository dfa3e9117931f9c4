import Mathlib.Data.Set.List
import SpinBoson.Proofs.Operator.Arrangement
import SpinBoson.Proofs.Operator.Reduced

/-!
Repeated steps towards qubits in front of modes end with left-nested chains of Pauli operators and
then words.
-/
namespace SpinBoson.Operator

variable {κ ρ : Type} [RealScalar ρ] [Scalar κ ρ]

section Shapes

omit [RealScalar ρ] [Scalar κ ρ]

/-! Chains stay chains -/

/-- Whether a step keeps chains and words. -/
def KeepsChains (a b : Operator κ) : Prop :=
  (a.IsChain → b.IsChain) ∧ (a.IsWord → b.IsWord)

theorem isChain_kron_iff {a b : Operator κ} : (kron a b).IsChain ↔ a.IsChain ∧ b.IsChain := by
  constructor
  · intro h
    cases h with
    | word h => cases h
    | kron ha hb => exact ⟨ha, hb⟩
  · exact fun h => .kron h.1 h.2

theorem isWord_mul_iff {a b : Operator κ} : (mul a b).IsWord ↔ a.IsWord ∧ b.IsWord := by
  constructor
  · intro h
    cases h with
    | mul ha hb => exact ⟨ha, hb⟩
  · exact fun h => .mul h.1 h.2

theorem keepsChains_congruence : Congruence (KeepsChains (κ := κ)) where
  refl _ := ⟨id, id⟩
  trans hab hbc := ⟨hbc.1 ∘ hab.1, hbc.2 ∘ hab.2⟩
  bin {op a a' b b'} ha hb := by
    have hword : (bin op a b).IsWord → (bin op a' b').IsWord := by
      intro h
      cases h with
      | mul h h' => exact .mul (ha.2 h) (hb.2 h')
    refine ⟨fun h => ?_, hword⟩
    cases h with
    | word h => exact .word (hword h)
    | kron h h' => exact .kron (ha.1 h) (hb.1 h')
  scale _ := by
    constructor
    · intro h
      cases h with
      | word h => cases h
    · intro h
      cases h

theorem keepsChains_gatherQubits (a : Operator κ) : KeepsChains a a.gatherQubits := by
  unfold gatherQubits
  split
  · refine ⟨?_, fun h => by cases h⟩
    simp only [isChain_kron_iff]
    tauto
  · split
    · refine ⟨?_, fun h => by cases h⟩
      simp only [isChain_kron_iff]
      tauto
    · exact ⟨id, id⟩
  · split
    · refine ⟨?_, fun h => by cases h⟩
      simp only [isChain_kron_iff]
      tauto
    · exact ⟨id, id⟩
  · exact ⟨id, id⟩

/-! The qubits and modes of a chain -/

theorem IsChain.ranks {a : Operator κ} (h : a.IsChain) {s : Signature}
    (hs : a.signature = .ok s) : qubitsFirst.ranks a = ↑(s.map placeRank) := by
  induction h generalizing s with
  | pauli p =>
    cases hs
    rfl
  | word h =>
    cases h.signature.symm.trans hs
    exact ranks_of_factorSubsystem h.factorSubsystem
  | @kron a b _ _ iha ihb =>
    obtain ⟨l, r, hl, hr, rfl⟩ := signature_kron_iff.mp hs
    have hranks := qubitsFirst.ranks_bin_self a b
    rw [iha hl, ihb hr, Multiset.coe_add, ← List.map_append] at hranks
    exact hranks

theorem gatherQubits_ranks (a : Operator κ) :
    qubitsFirst.ranks (a.rewrite gatherQubits) = qubitsFirst.ranks a := by
  rcases rewrite_eq_or_lt qubitsFirst.descent gatherQubits_closer a with ⟨heq, _⟩ | hlt
  · rw [heq]
  · exact hlt.1

theorem count_of_ranks {s t : Signature}
    (h : (↑(s.map placeRank) : Multiset Nat) = ↑(t.map placeRank)) (x : Subsystem) :
    s.count x = t.count x := by
  have hinj : Function.Injective placeRank := by
    intro x y hxy
    cases x <;> cases y <;> simp_all [placeRank]
  have hperm : (s.map placeRank).Perm (t.map placeRank) := Multiset.coe_eq_coe.mp h
  have hcount := hperm.count_eq (placeRank x)
  rwa [List.count_map_of_injective _ _ hinj, List.count_map_of_injective _ _ hinj] at hcount

/-! The shape of what is left -/

/-- Left-nested chains of Pauli operators and then of modes, as many as a signature has. -/
def IsArranged (W : Operator κ → Prop) (s : Signature) (a : Operator κ) : Prop :=
  ∃ (ps : List Pauli) (ws : List (Operator κ)),
    ps.length = s.count .qubit ∧ ws.length = s.count .mode ∧ (∀ w ∈ ws, W w) ∧
      kronChain? (ps.map pauli ++ ws) = some a

theorem kronChain_eq_some_append {xs : List (Operator κ)} {y a : Operator κ}
    (h : kronChain? (xs ++ [y]) = some a) :
    xs = [] ∧ a = y ∨ ∃ x, kronChain? xs = some x ∧ a = kron x y :=
  leftNested?_append_eq_some.mp h

theorem kronChain_append {xs : List (Operator κ)} {x : Operator κ} (h : kronChain? xs = some x)
    (y : Operator κ) : kronChain? (xs ++ [y]) = some (kron x y) :=
  leftNested?_append_eq_some.mpr (.inr ⟨x, h, rfl⟩)

theorem lastKronFactor_of_not_kron {a : Operator κ} (h : a.isKron = false) :
    a.lastKronFactor = a := by
  unfold lastKronFactor
  split
  · cases h
  · rfl

/-- What a step leaves alone is nested to the left, with no qubit after a mode. -/
theorem gatherQubits_eq_iff {x b : Operator κ} :
    (kron x b).gatherQubits = kron x b ↔ b.isKron = false ∧
      ¬ (b.factorSubsystem? = some .qubit ∧ x.lastKronFactor.factorSubsystem? = some .mode) := by
  -- operands on different subsystems are not equal, so swapping them is a change
  have hne {m : Operator κ} (hb : b.factorSubsystem? = some .qubit)
      (hm : m.factorSubsystem? = some .mode) : b ≠ m := by
    rintro rfl
    cases hb.symm.trans hm
  by_cases hkron : b.isKron = true
  · obtain ⟨y, z, rfl⟩ := isKron_iff.mp hkron
    refine iff_of_false (fun h => ?_) (by simp [isKron])
    have hsize := congrArg size (Operator.bin.inj h).2.2
    simp only [size] at hsize
    omega
  · rw [Bool.not_eq_true] at hkron
    simp only [hkron, true_and]
    unfold gatherQubits
    split
    · rename_i heq
      cases heq
      cases hkron
    · rename_i p m _ _ heq
      cases heq
      split
      · rename_i h
        exact iff_of_false (fun heq => hne h.1 h.2 (Operator.bin.inj (Operator.bin.inj heq).2.1).2.2)
          (fun h' => h' h)
      · rename_i h
        exact iff_of_true rfl h
    · rename_i m _ hm heq
      cases heq
      rw [lastKronFactor_of_not_kron (isKron_eq_false_iff.mpr hm)]
      split
      · rename_i h
        exact iff_of_false (fun heq => hne h.1 h.2 (Operator.bin.inj heq).2.1) (fun h' => h' h)
      · rename_i h
        exact iff_of_true rfl h
    · rename_i h
      exact (h x b rfl).elim

/-- The check accepts exactly what a step leaves alone. -/
theorem gatheredQubitsViolation_eq_none_iff [RealScalar ρ] [Scalar κ ρ] {a : Operator κ} :
    a.gatheredQubitsViolation? = none ↔ a.gatherQubits = a := by
  cases a with
  | spin | mode | scale => exact iff_of_true rfl rfl
  | bin op x b =>
    cases op with
    | add | sub | mul => exact iff_of_true rfl rfl
    | kron =>
      rw [gatherQubits_eq_iff]
      unfold gatheredQubitsViolation?
      split
      · rename_i heq
        cases heq
        simp [isKron]
      · rename_i hkron heq
        cases heq
        simp [isKron_eq_false_iff.mpr hkron, and_comm]
      · rename_i hkron
        exact (hkron x b rfl).elim

theorem IsFactor.plain {a : Operator κ} (h : a.IsFactor) :
    a.isKron = false ∧ a.lastKronFactor = a := by
  rcases h with ⟨p, rfl⟩ | h
  · exact ⟨rfl, rfl⟩
  · cases h <;> exact ⟨rfl, rfl⟩

theorem IsFactor.isChain {a : Operator κ} (h : a.IsFactor) : a.IsChain := by
  rcases h with ⟨p, rfl⟩ | h
  · exact .pauli p
  · exact .word h

/-- Whether a tensor factor is a qubit operator or a word. -/
def IsPlace (a : Operator κ) : Prop :=
  a.isSpin = true ∨ a.IsWord

theorem isSpin_iff {a : Operator κ} : a.isSpin = true ↔ ∃ s, a = spin s := by
  cases a <;> simp [isSpin]

theorem IsPlace.factorSubsystem {a : Operator κ} (h : a.IsPlace) :
    a.factorSubsystem? = some (if a.isSpin then .qubit else .mode) := by
  rcases h with h | h
  · obtain ⟨s, rfl⟩ := isSpin_iff.mp h
    rfl
  · rw [h.plain.2]
    exact h.factorSubsystem

theorem IsPlace.plain {a : Operator κ} (h : a.IsPlace) :
    a.isKron = false ∧ a.lastKronFactor = a := by
  rcases h with h | h
  · obtain ⟨s, rfl⟩ := isSpin_iff.mp h
    exact ⟨rfl, rfl⟩
  · exact IsFactor.plain (.inr h)

theorem lastKronFactor_of_kronChain {xs : List (Operator κ)} {y a : Operator κ}
    (hy : y.lastKronFactor = y) (h : kronChain? (xs ++ [y]) = some a) :
    a.lastKronFactor = y := by
  rcases kronChain_eq_some_append h with ⟨_, rfl⟩ | ⟨x, _, rfl⟩
  · exact hy
  · rfl

/-- A chain of places that no step changes has its qubits, as they come, in front of its words. -/
theorem kronChain_of_fixed {a : Operator κ} (h : ∀ x ∈ a.kronFactors, x.IsPlace)
    (hfixed : a.AllNodes fun x => x.gatherQubits = x) :
    kronChain? (a.kronFactors.filter isSpin ++ a.kronFactors.filter (!·.isSpin)) = some a := by
  induction a using operands_induction .kron with
  | single a ha =>
    rw [kronFactors, ha]
    cases hspin : a.isSpin <;> simp [hspin, kronChain?]
  | bin a b iha _ =>
    obtain ⟨hplain, hlast⟩ := gatherQubits_eq_iff.mp hfixed.1
    rw [kronFactors_kron, kronFactors_of_not_kron hplain] at h ⊢
    rw [List.forall_mem_append, List.forall_mem_singleton] at h
    have hchain := iha h.1 hfixed.2.1
    rcases hb : b.isSpin
    · simpa [List.filter_append, hb] using kronChain_append hchain b
    · -- no word can stand on the left of a qubit
      have hwords : a.kronFactors.filter (!·.isSpin) = [] := by
        rcases List.eq_nil_or_concat (a.kronFactors.filter (!·.isSpin)) with hnil | ⟨ws, w, hws⟩
        · exact hnil
        · have hw : w ∈ a.kronFactors.filter (!·.isSpin) := by simp [hws]
          rw [List.mem_filter, Bool.not_eq_true'] at hw
          have hplace := h.1 w hw.1
          rw [hws, List.concat_eq_append, ← List.append_assoc] at hchain
          rw [lastKronFactor_of_kronChain hplace.plain.2 hchain, hplace.factorSubsystem, hw.2,
            h.2.factorSubsystem, hb] at hlast
          exact absurd ⟨rfl, rfl⟩ hlast
      rw [hwords, List.append_nil] at hchain
      simpa [List.filter_append, hb, hwords] using kronChain_append hchain b

/-- A chain that no step changes has its Pauli operators in front of its words. -/
theorem exists_kronChain_of_fixed {a : Operator κ} (h : a.IsChain)
    (hfixed : a.AllNodes fun x => x.gatherQubits = x) :
    ∃ (ps : List Pauli) (ws : List (Operator κ)), (∀ w ∈ ws, w.IsWord) ∧
      kronChain? (ps.map pauli ++ ws) = some a := by
  obtain ⟨ps, hps⟩ : a.kronFactors.filter isSpin ∈ Set.range (List.map pauli) := by
    rw [Set.range_list_map]
    intro x hx
    rw [List.mem_filter] at hx
    rcases h.factors x hx.1 with ⟨p, rfl⟩ | hword
    · exact ⟨p, rfl⟩
    · exact absurd hx.2 (by simp [hword.plain.2])
  refine ⟨ps, a.kronFactors.filter (!·.isSpin), ?_, ?_⟩
  · intro w hw
    rw [List.mem_filter] at hw
    rcases h.factors w hw.1 with ⟨p, rfl⟩ | hword
    · cases hw.2
    · exact hword
  · rw [hps]
    refine kronChain_of_fixed (fun x hx => ?_) hfixed
    rcases h.factors x hx with ⟨p, rfl⟩ | hword
    · exact .inl rfl
    · exact .inr hword

theorem forall₂_replicate {α β : Type} {R : α → β → Prop} {xs : List α} {y : β}
    (h : ∀ x ∈ xs, R x y) : List.Forall₂ R xs (List.replicate xs.length y) := by
  induction xs with
  | nil => exact .nil
  | cons x xs ih =>
    rw [List.forall_mem_cons] at h
    exact .cons h.1 (ih h.2)

theorem signature_of_places {ps : List Pauli} {ws : List (Operator κ)}
    (hws : ∀ w ∈ ws, w.signature = .ok [.mode]) {a : Operator κ}
    (h : kronChain? (ps.map pauli ++ ws) = some a) :
    a.signature = .ok (List.replicate ps.length .qubit ++ List.replicate ws.length .mode) := by
  have hqubits : List.Forall₂ (fun (x : Operator κ) t => x.signature = .ok t) (ps.map pauli)
      (List.replicate (ps.map (pauli (κ := κ))).length [.qubit]) := by
    refine forall₂_replicate fun x hx => ?_
    obtain ⟨p, _, rfl⟩ := List.mem_map.mp hx
    rfl
  have hmodes : List.Forall₂ (fun (x : Operator κ) t => x.signature = .ok t) ws
      (List.replicate ws.length [.mode]) := forall₂_replicate hws
  have hsig := signature_kronChain (List.rel_append hqubits hmodes) h
  simpa [List.flatten_append, List.flatten_replicate_singleton] using hsig

/-- A signature with its qubits in front. -/
def qubitsThenModes (s : Signature) : Signature :=
  s.filter (· == .qubit) ++ s.filter (· == .mode)

theorem IsArranged.signature {W : Operator κ → Prop} (hW : ∀ w, W w → w.signature = .ok [.mode])
    {s : Signature} {a : Operator κ} (h : a.IsArranged W s) :
    a.signature = .ok (qubitsThenModes s) := by
  obtain ⟨ps, ws, hps, hws, hall, hchain⟩ := h
  rw [signature_of_places (fun w hw => hW w (hall w hw)) hchain, hps, hws, qubitsThenModes,
    List.filter_beq, List.filter_beq]

/-- A chain with the qubits and modes of a signature is arranged once no step changes it. -/
theorem isArranged_of_fixed {a : Operator κ} (h : a.IsChain) {s : Signature}
    (hranks : qubitsFirst.ranks a = ↑(s.map placeRank))
    (hfixed : a.AllNodes fun x => x.gatherQubits = x) : a.IsArranged IsWord s := by
  obtain ⟨ps, ws, hws, hchain⟩ := exists_kronChain_of_fixed h hfixed
  have hsig := signature_of_places (fun w hw => (hws w hw).signature) hchain
  have hcount := count_of_ranks ((h.ranks hsig).symm.trans hranks)
  refine ⟨ps, ws, ?_, ?_, hws, hchain⟩
  · rw [← hcount]
    simp [List.count_append, List.count_replicate]
  · rw [← hcount]
    simp [List.count_append, List.count_replicate]

/-! What holds in arranged chains -/

section Arranged

variable {W W' : Operator κ → Prop} {s : Signature} {a : Operator κ}

theorem isChain_of_kronChain {xs : List (Operator κ)} (hxs : ∀ x ∈ xs, x.IsFactor)
    (h : kronChain? xs = some a) : a.IsChain := by
  induction h using leftNested?_induction with
  | single a => exact (hxs a (List.mem_singleton_self a)).isChain
  | append xs a x _ ih =>
    rw [List.forall_mem_append, List.forall_mem_singleton] at hxs
    exact .kron (ih hxs.1) hxs.2.isChain

/-- In a chain of factors no qubit of which follows a mode, a property holds at all nodes. -/
theorem allNodes_kronChain {V : Operator κ → Prop}
    (hkron : ∀ x b, x.IsChain → b.IsFactor →
      ¬ (b.factorSubsystem? = some .qubit ∧ x.lastKronFactor.factorSubsystem? = some .mode) →
        V (kron x b))
    {xs : List (Operator κ)} (hxs : ∀ x ∈ xs, x.IsFactor ∧ x.AllNodes V)
    (hpairs : xs.Pairwise fun x y =>
      ¬ (y.factorSubsystem? = some .qubit ∧ x.factorSubsystem? = some .mode))
    (h : kronChain? xs = some a) : a.AllNodes V := by
  induction h using leftNested?_induction with
  | single a => exact (hxs a (List.mem_singleton_self a)).2
  | append xs x y hx ih =>
    rw [List.forall_mem_append, List.forall_mem_singleton] at hxs
    rw [List.pairwise_append] at hpairs
    refine ⟨hkron x y (isChain_of_kronChain (fun z hz => (hxs.1 z hz).1) hx) hxs.2.1 ?_,
      ih hxs.1 hpairs.1, hxs.2.2⟩
    rcases List.eq_nil_or_concat xs with rfl | ⟨zs, z, rfl⟩
    · cases hx
    · rw [List.concat_eq_append] at hx hxs hpairs
      rw [lastKronFactor_of_kronChain (hxs.1 z (by simp)).1.plain.2 hx]
      exact hpairs.2.2 z (by simp) y (by simp)

theorem IsArranged.allNodes {V : Operator κ → Prop} (h : a.IsArranged W s)
    (hW : ∀ w, W w → w.IsWord ∧ w.AllNodes V) (hpauli : ∀ p, V (pauli p))
    (hkron : ∀ x b, x.IsChain → b.IsFactor →
      ¬ (b.factorSubsystem? = some .qubit ∧ x.lastKronFactor.factorSubsystem? = some .mode) →
        V (kron x b)) : a.AllNodes V := by
  obtain ⟨ps, ws, _, _, hws, hchain⟩ := h
  refine allNodes_kronChain hkron ?_ ?_ hchain
  · intro x hx
    rcases List.mem_append.mp hx with hx | hx
    · obtain ⟨p, _, rfl⟩ := List.mem_map.mp hx
      exact ⟨.inl ⟨p, rfl⟩, hpauli p⟩
    · exact ⟨.inr (hW x (hws x hx)).1, (hW x (hws x hx)).2⟩
  · have hmode : ∀ w ∈ ws, w.factorSubsystem? = some .mode :=
      fun w hw => (hW w (hws w hw)).1.factorSubsystem
    refine List.pairwise_append.mpr ⟨?_, ?_, ?_⟩
    · rw [List.pairwise_map]
      exact List.pairwise_of_forall fun p q h => by cases h.2
    · refine List.pairwise_of_forall_mem_list fun x _ y hy h => ?_
      cases (hmode y hy).symm.trans h.1
    · intro x _ y hy h
      cases (hmode y hy).symm.trans h.1

/-- Whether a rule acts on products alone. -/
structure ActsInWords (f : Operator κ → Operator κ) : Prop extends ActsInTerms f where
  spin : ∀ s, f (spin s) = spin s
  kron : ∀ a b, f (kron a b) = kron a b

theorem IsArranged.rewrite {f : Operator κ → Operator κ} (hf : ActsInWords f)
    (hW : ∀ w, W w → W' (w.rewrite f)) (h : a.IsArranged W s) : (a.rewrite f).IsArranged W' s := by
  have chain {xs : List (Operator κ)} {x : Operator κ} (h : kronChain? xs = some x) :
      kronChain? (xs.map (Operator.rewrite f)) = some (x.rewrite f) := by
    induction h using leftNested?_induction with
    | single x => rfl
    | append xs x y _ ih =>
      rw [List.map_append, Operator.rewrite, hf.kron]
      exact kronChain_append ih _
  obtain ⟨ps, ws, hps, hws, hall, hchain⟩ := h
  refine ⟨ps, ws.map (Operator.rewrite f), hps, by rw [List.length_map, hws], ?_, ?_⟩
  · intro w hw
    obtain ⟨v, hv, rfl⟩ := List.mem_map.mp hw
    exact hW v (hall v hv)
  · have hchain := chain hchain
    rw [List.map_append, List.map_map] at hchain
    have hpauli : Operator.rewrite f ∘ pauli = pauli := funext fun p => hf.spin (.pauli p)
    rwa [hpauli] at hchain

theorem allNodes_of_kronChain {V : Operator κ → Prop} {xs : List (Operator κ)}
    (h : kronChain? xs = some a) (hV : a.AllNodes V) : ∀ x ∈ xs, x.AllNodes V := by
  induction h using leftNested?_induction with
  | single a =>
    rw [List.forall_mem_singleton]
    exact hV
  | append xs x y _ ih =>
    rw [List.forall_mem_append, List.forall_mem_singleton]
    exact ⟨ih hV.2.1, hV.2.2⟩

/-- A property of all nodes holds at those of the words. -/
theorem IsArranged.and_allNodes {V : Operator κ → Prop} (h : a.IsArranged W s)
    (hV : a.AllNodes V) : a.IsArranged (fun w => W w ∧ w.AllNodes V) s := by
  obtain ⟨ps, ws, hps, hws, hall, hchain⟩ := h
  have hnodes := allNodes_of_kronChain hchain hV
  exact ⟨ps, ws, hps, hws, fun w hw => ⟨hall w hw, hnodes w (List.mem_append_right _ hw)⟩, hchain⟩

theorem IsArranged.imp (hW : ∀ w, W w → W' w) (h : a.IsArranged W s) : a.IsArranged W' s := by
  obtain ⟨ps, ws, hps, hws, hall, hchain⟩ := h
  exact ⟨ps, ws, hps, hws, fun w hw => hW w (hall w hw), hchain⟩

theorem IsArranged.isChain (hW : ∀ w, W w → w.IsWord) (h : a.IsArranged W s) : a.IsChain := by
  obtain ⟨ps, ws, _, _, hall, hchain⟩ := h
  refine isChain_of_kronChain (fun x hx => ?_) hchain
  rcases List.mem_append.mp hx with hx | hx
  · obtain ⟨p, _, rfl⟩ := List.mem_map.mp hx
    exact .inl ⟨p, rfl⟩
  · exact .inr (hW x (hall x hx))

end Arranged

end Shapes

end SpinBoson.Operator
