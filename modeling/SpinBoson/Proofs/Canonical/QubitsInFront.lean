import SpinBoson.Proofs.Canonical.Rest

/-!
Gathering qubits as a stable partition. Repeated steps end with the qubits of a tensor chain in front
of its modes, and both come in the order in which they stood.
-/
namespace SpinBoson.Operator

open Canonical Pass

variable {κ ρ : Type} {a : Operator κ}

/-- Whether an operator is a tensor chain, however it is nested, of qubit operators and words. -/
def IsPlaces (a : Operator κ) : Prop :=
  ∀ x ∈ a.kronFactors, x.IsPlace

/-- The qubits of a tensor chain, in their order. -/
def qubits (a : Operator κ) : List (Operator κ) :=
  a.kronFactors.filter isSpin

/-- The factors of a tensor chain that are no qubits, in their order. -/
def modes (a : Operator κ) : List (Operator κ) :=
  a.kronFactors.filter (!·.isSpin)

theorem isPlaces_kron {a b : Operator κ} : (kron a b).IsPlaces ↔ a.IsPlaces ∧ b.IsPlaces := by
  rw [IsPlaces, kronFactors_kron, List.forall_mem_append]
  rfl

@[simp]
theorem qubits_kron (a b : Operator κ) : (kron a b).qubits = a.qubits ++ b.qubits := by
  rw [qubits, kronFactors_kron, List.filter_append, qubits, qubits]

@[simp]
theorem modes_kron (a b : Operator κ) : (kron a b).modes = a.modes ++ b.modes := by
  rw [modes, kronFactors_kron, List.filter_append, modes, modes]

/-- What acts on one subsystem is its own factor, a qubit operator if that is a qubit. -/
theorem IsPlaces.of_factor {t : Subsystem} (h : a.IsPlaces) (ha : a.factorSubsystem? = some t) :
    a.kronFactors = [a] ∧ (if a.isSpin then Subsystem.qubit else .mode) = t := by
  have hkron : a.isKron = false := isKron_eq_false_iff.mpr fun x y h => by
    subst h
    cases ha
  rw [IsPlaces, kronFactors_of_not_kron hkron, List.forall_mem_singleton] at h
  exact ⟨kronFactors_of_not_kron hkron, Option.some.inj (h.factorSubsystem.symm.trans ha)⟩

theorem IsPlaces.qubits_of_mode (h : a.IsPlaces) (ha : a.factorSubsystem? = some .mode) :
    a.qubits = [] := by
  obtain ⟨hself, hspin⟩ := h.of_factor ha
  rw [qubits, hself]
  cases hs : a.isSpin <;> simp_all

theorem IsPlaces.modes_of_qubit (h : a.IsPlaces) (ha : a.factorSubsystem? = some .qubit) :
    a.modes = [] := by
  obtain ⟨hself, hspin⟩ := h.of_factor ha
  rw [modes, hself]
  cases hs : a.isSpin <;> simp_all

theorem IsPlaces.beq_self [BEq κ] (h : a.IsPlaces) : (a == a) = true := by
  refine of_operands .kron (P := fun x => (x == x) = true)
    (fun x y hx hy => bin_beq.mpr ⟨x, y, rfl, hx, hy⟩) fun x hx => ?_
  rcases h x hx with hspin | hword
  · obtain ⟨s, rfl⟩ := isSpin_iff.mp hspin
    exact spin_beq.mpr rfl
  · exact hword.isProduct.beq_self

/-! Places only change places -/

/-- Whether a step keeps words, and the order of the qubits and of the modes of a chain. -/
def KeepsPlaces (a b : Operator κ) : Prop :=
  (a.IsWord → b = a) ∧ (a.IsPlaces → b.IsPlaces ∧ b.qubits = a.qubits ∧ b.modes = a.modes)

theorem keepsPlaces_congruence : Congruence (KeepsPlaces (κ := κ)) where
  refl _ := ⟨fun _ => rfl, fun h => ⟨h, rfl, rfl⟩⟩
  trans {a b c} hab hbc := by
    constructor
    · intro h
      obtain rfl := hab.1 h
      exact hbc.1 h
    · intro h
      obtain ⟨hb, hqubits, hmodes⟩ := hab.2 h
      obtain ⟨hc, hqubits', hmodes'⟩ := hbc.2 hb
      exact ⟨hc, hqubits'.trans hqubits, hmodes'.trans hmodes⟩
  bin {op a a' b b'} ha hb := by
    have hword : (bin op a b).IsWord → bin op a' b' = bin op a b := by
      intro h
      cases h with
      | mul h h' => rw [ha.1 h, hb.1 h']
    refine ⟨hword, fun h => ?_⟩
    by_cases hop : op = .kron
    · subst hop
      obtain ⟨hpa, hpb⟩ := isPlaces_kron.mp h
      obtain ⟨hpa', hqa, hma⟩ := ha.2 hpa
      obtain ⟨hpb', hqb, hmb⟩ := hb.2 hpb
      refine ⟨isPlaces_kron.mpr ⟨hpa', hpb'⟩, ?_, ?_⟩
      · rw [qubits_kron, qubits_kron, hqa, hqb]
      · rw [modes_kron, modes_kron, hma, hmb]
    · have hplace := h
      rw [IsPlaces, kronFactors, operands_bin_of_ne hop, List.forall_mem_singleton] at hplace
      rcases hplace with hspin | hplace
      · cases hspin
      · rw [hword hplace]
        exact ⟨h, rfl, rfl⟩
  scale _ := by
    constructor
    · intro h
      cases h
    · intro h
      rcases h _ (List.mem_singleton_self _) with h | h <;> cases h

theorem keepsPlaces_gatherQubits (a : Operator κ) : KeepsPlaces a a.gatherQubits := by
  unfold gatherQubits
  split
  · refine ⟨fun h => (by cases h), ?_⟩
    simp only [isPlaces_kron, qubits_kron, modes_kron, List.append_assoc, and_self, and_true]
    tauto
  · rename_i x m b _
    split
    · rename_i h
      refine ⟨fun h => (by cases h), fun hplaces => ?_⟩
      simp only [isPlaces_kron] at hplaces
      obtain ⟨⟨hx, hm⟩, hb⟩ := hplaces
      simp only [isPlaces_kron, qubits_kron, modes_kron, hm.qubits_of_mode h.2,
        hb.modes_of_qubit h.1, List.append_nil]
      exact ⟨⟨⟨hx, hb⟩, hm⟩, trivial, trivial⟩
    · exact keepsPlaces_congruence.refl _
  · rename_i m b _ _
    split
    · rename_i h
      refine ⟨fun h => (by cases h), fun hplaces => ?_⟩
      obtain ⟨hm, hb⟩ := isPlaces_kron.mp hplaces
      simp only [isPlaces_kron, qubits_kron, modes_kron, hm.qubits_of_mode h.2,
        hb.modes_of_qubit h.1, List.append_nil, List.nil_append]
      exact ⟨⟨hb, hm⟩, trivial, trivial⟩
    · exact keepsPlaces_congruence.refl _
  · exact keepsPlaces_congruence.refl _

/-! The repetition -/

variable [RealScalar ρ] [Scalar κ ρ]

/--
Repeated steps end with the qubits of a tensor chain in their order, then its words in theirs, all
nested to the left.
-/
theorem gatherQubits_partition (h : ∀ x ∈ a.kronFactors, x.isSpin = true ∨ x.IsWord) :
    ∃ b, kronChain? (a.kronFactors.filter isSpin ++ a.kronFactors.filter (!·.isSpin)) = some b ∧
      (Pass.ofRule .post (gatherQubitsRule (κ := κ)) : Pass (Operator κ)).ComesToRestAt a b := by
  have hkeep (x : Operator κ) (hx : x.IsPlaces ∧ x.qubits = a.qubits ∧ x.modes = a.modes) :
      (x.rewrite gatherQubits).IsPlaces ∧ (x.rewrite gatherQubits).qubits = a.qubits ∧
        (x.rewrite gatherQubits).modes = a.modes := by
    obtain ⟨hplaces, hqubits, hmodes⟩ :=
      (rewrite_related keepsPlaces_congruence keepsPlaces_gatherQubits x).2 hx.1
    exact ⟨hplaces, hqubits.trans hx.2.1, hmodes.trans hx.2.2⟩
  obtain ⟨b, hrest, ⟨hplaces, hqubits, hmodes⟩, hfixed⟩ := exists_comesToRestAt_of_closer
    gatherQubits_closer hkeep (fun _ hx => hx.1.beq_self) ⟨h, rfl, rfl⟩
  refine ⟨b, ?_, hrest⟩
  have hchain := kronChain_of_fixed hplaces hfixed
  rwa [← qubits, ← modes, hqubits, hmodes] at hchain

/-- A word between two qubits, in a chain that is nested to the right, ends up behind them. -/
theorem gatherQubits_partition_three :
    (∀ x ∈ (kron (spin (.pauli .z)) (kron (mul (mode .creation) (mode .annihilation))
      (spin .raising)) : Operator ClosedNumber).kronFactors, x.isSpin = true ∨ x.IsWord) ∧
    (Pass.ofRule .post (gatherQubitsRule (κ := ClosedNumber)) :
      Pass (Operator ClosedNumber)).ComesToRestAt
        (kron (spin (.pauli .z)) (kron (mul (mode .creation) (mode .annihilation)) (spin .raising)))
        (kron (kron (spin (.pauli .z)) (spin .raising))
          (mul (mode .creation) (mode .annihilation))) := by
  have hplaces : ∀ x ∈ (kron (spin (.pauli .z)) (kron (mul (mode .creation) (mode .annihilation))
      (spin .raising)) : Operator ClosedNumber).kronFactors, x.isSpin = true ∨ x.IsWord := by
    simp [kronFactors, operands, operandsBefore, isSpin, isWord_mul_iff, IsWord.mode]
  obtain ⟨b, hchain, hrest⟩ := gatherQubits_partition hplaces
  cases hchain
  exact ⟨hplaces, hrest⟩

end SpinBoson.Operator
