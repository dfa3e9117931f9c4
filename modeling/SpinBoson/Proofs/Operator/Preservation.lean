import Mathlib
import SpinBoson.Canonical.NormalOrdered
import SpinBoson.Proofs.Operator.Denotation
import SpinBoson.Proofs.Operator.Signatures

/-!
Every rule that distributes, reduces, reorders or prunes keeps the meaning of an operator in every
interpretation, so it may be used at any place of a tree.
-/
namespace SpinBoson.Operator

variable {κ ι R ρ : Type} [RealScalar ρ] [Scalar κ ρ] [Fintype ι] [CommSemiring R]
  {I : Interpretation κ ι R}

/-- Whether an operator has a meaning: its dimensions fit and its coefficients have numbers. -/
def Meaningful (I : Interpretation κ ι R) (a : Operator κ) : Prop :=
  a.Balanced ∧ ∀ c ∈ a.coeffs, I.Defined c

@[simp]
theorem meaningful_spin (s : Spin) : (spin s : Operator κ).Meaningful I :=
  ⟨trivial, by simp [coeffs]⟩

@[simp]
theorem meaningful_mode (l : Ladder) : (mode l : Operator κ).Meaningful I :=
  ⟨trivial, by simp [coeffs]⟩

@[simp]
theorem meaningful_kron {a b : Operator κ} :
    (kron a b).Meaningful I ↔ a.Meaningful I ∧ b.Meaningful I := by
  simp only [Meaningful, Balanced, coeffs, List.mem_append, or_imp, forall_and]
  tauto

theorem meaningful_bin {op : Op} (hop : op ≠ .kron) {a b : Operator κ} :
    (bin op a b).Meaningful I ↔ a.Meaningful I ∧ b.Meaningful I ∧ b.dims = a.dims := by
  have hbal : (bin op a b).Balanced ↔ a.Balanced ∧ b.Balanced ∧ b.dims = a.dims := by
    cases op with
    | kron => exact absurd rfl hop
    | add | sub | mul => exact Iff.rfl
  simp only [Meaningful, hbal, coeffs, List.mem_append, or_imp, forall_and]
  tauto

@[simp]
theorem meaningful_add {a b : Operator κ} :
    (add a b).Meaningful I ↔ a.Meaningful I ∧ b.Meaningful I ∧ b.dims = a.dims :=
  meaningful_bin (by decide)

@[simp]
theorem meaningful_sub {a b : Operator κ} :
    (sub a b).Meaningful I ↔ a.Meaningful I ∧ b.Meaningful I ∧ b.dims = a.dims :=
  meaningful_bin (by decide)

@[simp]
theorem meaningful_mul {a b : Operator κ} :
    (mul a b).Meaningful I ↔ a.Meaningful I ∧ b.Meaningful I ∧ b.dims = a.dims :=
  meaningful_bin (by decide)

@[simp]
theorem meaningful_scale {c : Coeff κ} {a : Operator κ} :
    (scale c a).Meaningful I ↔ I.Defined c ∧ a.Meaningful I := by
  simp only [Meaningful, Balanced, coeffs, List.mem_cons, forall_eq_or_imp]
  tauto

/-- The second operator has the dimensions and the element of the first wherever that has a
meaning. -/
def Preserves (I : Interpretation κ ι R) (a b : Operator κ) : Prop :=
  a.Meaningful I →
    b.Meaningful I ∧ b.dims = a.dims ∧ ∀ start, I.elementAt start b = I.elementAt start a

theorem preserves_congruence (I : Interpretation κ ι R) : Congruence (Preserves I) where
  refl _ h := ⟨h, rfl, fun _ => rfl⟩
  trans hab hbc h := by
    obtain ⟨hb, hdims, helem⟩ := hab h
    obtain ⟨hc, hdims', helem'⟩ := hbc hb
    exact ⟨hc, hdims'.trans hdims, fun start => (helem' start).trans (helem start)⟩
  bin {op a a' b b'} ha hb h := by
    cases op with
    | kron =>
      obtain ⟨hma, hmb⟩ := meaningful_kron.mp h
      obtain ⟨hma', hda, hea⟩ := ha hma
      obtain ⟨hmb', hdb, heb⟩ := hb hmb
      refine ⟨meaningful_kron.mpr ⟨hma', hmb'⟩, ?_, fun start => ?_⟩
      · rw [dims_kron, dims_kron, hda, hdb]
      · simp only [Interpretation.elementAt, hea, heb, hda]
    | add | sub | mul =>
      obtain ⟨hma, hmb, hd⟩ := (meaningful_bin (by decide)).mp h
      obtain ⟨hma', hda, hea⟩ := ha hma
      obtain ⟨hmb', hdb, heb⟩ := hb hmb
      refine ⟨(meaningful_bin (by decide)).mpr ⟨hma', hmb', by rw [hda, hdb, hd]⟩, hda,
        fun start => ?_⟩
      simp only [Interpretation.elementAt, hea, heb]
  scale ha h := by
    obtain ⟨hc, hma⟩ := meaningful_scale.mp h
    obtain ⟨hma', hda, hea⟩ := ha hma
    refine ⟨meaningful_scale.mpr ⟨hc, hma'⟩, hda, fun start => ?_⟩
    simp only [Interpretation.elementAt, hea]

/-! Distributing -/

theorem elementAt_ladderPauli (x y : ρ) (start : Dims) :
    I.elementAt start (ladderPauli x y) = Element.onQubit start.qubits
      (I.number (.ofReal x) • I.matrix (.pauli .x) +
        I.number (.lit (Scalar.ofParts 0 y)) • I.matrix (.pauli .y)) := by
  simp only [ladderPauli, Interpretation.elementAt, Element.onQubit_add, Element.onQubit_smul]

theorem preserves_ladderPauli {s : Spin} {x y : ρ}
    (h : I.matrix s = I.number (.ofReal x) • I.matrix (.pauli .x) +
      I.number (.lit (Scalar.ofParts 0 y)) • I.matrix (.pauli .y)) :
    Preserves I (spin s) (ladderPauli x y) := by
  intro _
  refine ⟨by simp [ladderPauli, Coeff.ofReal, I.defined_lit], rfl, fun start => ?_⟩
  rw [elementAt_ladderPauli, ← h]
  rfl

theorem preserves_overSum_left {op : Op} (hop : op.IsProduct) (x y b : Operator κ) :
    Preserves I (bin op (add x y) b) (add (bin op x b) (bin op y b)) := by
  intro h
  rcases hop with rfl | rfl
  · simp only [meaningful_mul, meaningful_add, dims_add, dims_mul] at h ⊢
    obtain ⟨⟨hx, hy, hyx⟩, hb, hbx⟩ := h
    refine ⟨⟨⟨hx, hb, hbx⟩, ⟨hy, hb, hbx.trans hyx.symm⟩, hyx⟩, trivial, fun start => ?_⟩
    simp only [Interpretation.elementAt, add_mul]
  · simp only [meaningful_kron, meaningful_add, dims_add, dims_kron] at h ⊢
    obtain ⟨⟨hx, hy, hyx⟩, hb⟩ := h
    refine ⟨⟨⟨hx, hb⟩, ⟨hy, hb⟩, by rw [hyx]⟩, trivial, fun start => ?_⟩
    simp only [Interpretation.elementAt, add_mul, dims_add, hyx]

theorem preserves_overSum_right {op : Op} (hop : op.IsProduct) (a x y : Operator κ) :
    Preserves I (bin op a (add x y)) (add (bin op a x) (bin op a y)) := by
  intro h
  rcases hop with rfl | rfl
  · simp only [meaningful_mul, meaningful_add, dims_add, dims_mul] at h ⊢
    obtain ⟨ha, ⟨hx, hy, hyx⟩, hxa⟩ := h
    refine ⟨⟨⟨ha, hx, hxa⟩, ⟨ha, hy, hyx.trans hxa⟩, trivial⟩, trivial, fun start => ?_⟩
    simp only [Interpretation.elementAt, mul_add]
  · simp only [meaningful_kron, meaningful_add, dims_add, dims_kron] at h ⊢
    obtain ⟨ha, hx, hy, hyx⟩ := h
    refine ⟨⟨⟨ha, hx⟩, ⟨ha, hy⟩, by rw [hyx]⟩, trivial, fun start => ?_⟩
    simp only [Interpretation.elementAt, mul_add]

theorem preserves_overSum {op : Op} (hop : op.IsProduct) (a b : Operator κ) :
    Preserves I (bin op a b) (overSum op a b) := by
  unfold overSum
  split
  · exact preserves_overSum_left hop _ _ _
  · exact preserves_overSum_right hop _ _ _
  · exact (preserves_congruence I).refl _

theorem preserves_distribute (a : Operator κ) : Preserves I a a.distribute := by
  unfold distribute
  split
  · exact preserves_ladderPauli I.matrix_raising
  · exact preserves_ladderPauli I.matrix_lowering
  · intro h
    obtain ⟨ha, hb, hd⟩ := meaningful_sub.mp h
    exact ⟨by simp [ha, hb, hd, I.defined_lit], rfl, fun _ => rfl⟩
  · exact preserves_overSum (.inl rfl) _ _
  · exact preserves_overSum (.inr rfl) _ _
  · intro h
    simp only [meaningful_scale, meaningful_add] at h
    obtain ⟨hc, hx, hy, hd⟩ := h
    refine ⟨by simp [hc, hx, hy, hd], rfl, fun start => ?_⟩
    simp only [Interpretation.elementAt, smul_add]
  · exact (preserves_congruence I).refl _

/-! Gathering coefficients -/

theorem preserves_liftScale {op : Op} (hop : op.IsProduct) (a b : Operator κ) :
    Preserves I (bin op a b) (liftScale op a b) := by
  unfold liftScale
  split
  · rename_i c x b
    intro h
    rcases hop with rfl | rfl
    · simp only [meaningful_mul, meaningful_scale, dims_scale] at h
      refine ⟨by simp [h], rfl, fun start => ?_⟩
      simp only [Interpretation.elementAt, smul_mul_assoc]
    · simp only [meaningful_kron, meaningful_scale] at h
      refine ⟨by simp [h], rfl, fun start => ?_⟩
      simp only [Interpretation.elementAt, dims_scale, smul_mul_assoc]
  · rename_i a c y _
    intro h
    rcases hop with rfl | rfl
    · simp only [meaningful_mul, meaningful_scale, dims_scale] at h
      refine ⟨by simp [h], rfl, fun start => ?_⟩
      simp only [Interpretation.elementAt, mul_smul_comm]
    · simp only [meaningful_kron, meaningful_scale] at h
      refine ⟨by simp [h], rfl, fun start => ?_⟩
      simp only [Interpretation.elementAt, mul_smul_comm]
  · exact (preserves_congruence I).refl _

theorem preserves_gatherCoeffs (a : Operator κ) : Preserves I a a.gatherCoeffs := by
  unfold gatherCoeffs
  split
  · intro h
    simp only [meaningful_scale] at h
    obtain ⟨hc, hd, hx⟩ := h
    obtain ⟨hm, hn⟩ := I.merge hc hd
    refine ⟨meaningful_scale.mpr ⟨hm, hx⟩, rfl, fun start => ?_⟩
    simp only [Interpretation.elementAt, hn, mul_smul]
  · exact preserves_liftScale (.inl rfl) _ _
  · exact preserves_liftScale (.inr rfl) _ _
  · exact (preserves_congruence I).refl _

/-! Places -/

/-- An element that commutes with all matrices on the qubits of an operator commutes with it. -/
theorem commute_elementAt {e : Element ι R} {a : Operator κ} (ha : a.Balanced) {start : Dims}
    (h : ∀ q, start.qubits ≤ q → q < start.qubits + a.dims.qubits →
      ∀ M, Commute e (Element.onQubit q M)) : Commute e (I.elementAt start a) := by
  induction a generalizing start with
  | spin s => exact h _ (Nat.le_refl _) (Nat.lt_succ_self _) _
  | mode l => exact (Element.ofLetters_commute _ e).symm
  | scale c a ih => exact (ih ha h).smul_right _
  | bin op a b iha ihb =>
    cases op with
    | kron =>
      refine (iha ha.1 fun q hle hlt => h q hle ?_).mul_right (ihb ha.2 fun q hle hlt => h q ?_ ?_)
      · simp only [dims_kron, Dims.add_qubits]
        omega
      · simp only [Dims.add_qubits] at hle
        omega
      · simp only [dims_kron, Dims.add_qubits] at hlt ⊢
        omega
    | add => exact (iha ha.1 h).add_right (ihb ha.2.1 (ha.2.2.symm ▸ h))
    | sub => exact (iha ha.1 h).add_right ((ihb ha.2.1 (ha.2.2.symm ▸ h)).smul_right _)
    | mul => exact (iha ha.1 h).mul_right (ihb ha.2.1 (ha.2.2.symm ▸ h))

/-- Operators on different qubits commute. -/
theorem elementAt_commute {a b : Operator κ} (ha : a.Balanced) (hb : b.Balanced) {s t : Dims}
    (h : s.qubits + a.dims.qubits ≤ t.qubits) :
    Commute (I.elementAt s a) (I.elementAt t b) := by
  refine commute_elementAt hb fun q hle _ M => (commute_elementAt ha fun p _ hlt N => ?_).symm
  exact Element.onQubit_commute (by omega) _ _

/-- The product of the elements of operators at positions one after the other. -/
noncomputable def placesAt (I : Interpretation κ ι R) (start : Dims) :
    List (Operator κ) → Element ι R
  | [] => 1
  | a :: rest => I.elementAt start a * placesAt I (start + a.dims) rest

theorem placesAt_append (start : Dims) (as bs : List (Operator κ)) :
    placesAt I start (as ++ bs) =
      placesAt I start as * placesAt I (start + (as.map dims).sum) bs := by
  induction as generalizing start with
  | nil => simp [placesAt]
  | cons a as ih => simp only [List.cons_append, placesAt, ih, mul_assoc, List.map_cons,
      List.sum_cons, add_assoc]

theorem dims_eq_sum_kronFactors (a : Operator κ) : a.dims = (a.kronFactors.map dims).sum := by
  induction a using operands_induction .kron with
  | single a ha => simp [kronFactors, ha]
  | bin a b iha ihb =>
    rw [dims_kron, kronFactors, operands_bin_self, List.map_append, List.sum_append, ← iha, ← ihb]

theorem elementAt_eq_placesAt (a : Operator κ) (start : Dims) :
    I.elementAt start a = placesAt I start a.kronFactors := by
  induction a using operands_induction .kron generalizing start with
  | single a ha => simp [kronFactors, ha, placesAt]
  | bin a b iha ihb =>
    rw [kronFactors, operands_bin_self, placesAt_append, ← iha, ← dims_eq_sum_kronFactors, ← ihb]
    rfl

theorem meaningful_iff_kronFactors {a : Operator κ} :
    a.Meaningful I ↔ ∀ x ∈ a.kronFactors, x.Meaningful I := by
  induction a using operands_induction .kron with
  | single a ha => rw [kronFactors, ha, List.forall_mem_singleton]
  | bin a b iha ihb =>
    rw [meaningful_kron, iha, ihb, kronFactors_kron, List.forall_mem_append]

/-- A chain of factors has their meaning, place by place. -/
theorem kronChain_meaning {as : List (Operator κ)} {b : Operator κ} (h : kronChain? as = some b)
    (has : ∀ a ∈ as, a.Meaningful I) :
    b.Meaningful I ∧ b.dims = (as.map dims).sum ∧
      ∀ start, I.elementAt start b = placesAt I start as := by
  induction h using leftNested?_induction with
  | single a => exact ⟨has a (List.mem_singleton_self a), by simp, by simp [placesAt]⟩
  | append as b a _ ih =>
    rw [List.forall_mem_append, List.forall_mem_singleton] at has
    obtain ⟨hm, hd, he⟩ := ih has.1
    refine ⟨meaningful_kron.mpr ⟨hm, has.2⟩, ?_, fun start => ?_⟩
    · rw [dims_kron, hd, List.map_append, List.sum_append, List.map_singleton, List.sum_singleton]
    · rw [placesAt_append, ← he, ← hd]
      simp only [Interpretation.elementAt, placesAt, mul_one]

theorem commute_placesAt {a : Operator κ} (ha : a.Balanced) {bs : List (Operator κ)}
    (hbs : ∀ b ∈ bs, b.Balanced) {s t : Dims} (h : s.qubits + a.dims.qubits ≤ t.qubits) :
    Commute (I.elementAt s a) (placesAt I t bs) := by
  induction bs generalizing t with
  | nil => exact Commute.one_right _
  | cons b bs ih =>
    refine (elementAt_commute ha (hbs b List.mem_cons_self) h).mul_right ?_
    refine ih (fun x hx => hbs x (List.mem_cons_of_mem _ hx)) ?_
    simp only [Dims.add_qubits]
    omega

/-- Chains on the same places are multiplied place by place. -/
theorem placesAt_mul {ps : List (Operator κ × Operator κ)}
    (h : ∀ p ∈ ps, p.1.Balanced ∧ p.2.Balanced ∧ p.2.dims = p.1.dims) (start : Dims) :
    placesAt I start (ps.map fun p => mul p.1 p.2) =
      placesAt I start (ps.map (·.1)) * placesAt I start (ps.map (·.2)) := by
  induction ps generalizing start with
  | nil => simp [placesAt]
  | cons p ps ih =>
    obtain ⟨h1, h2, hd⟩ := h p List.mem_cons_self
    have hrest := fun q hq => h q (List.mem_cons_of_mem _ hq)
    have hcomm : Commute (I.elementAt start p.2)
        (placesAt I (start + p.1.dims) (ps.map (·.1))) := by
      refine commute_placesAt h2 ?_ ?_
      · intro b hb
        obtain ⟨q, hq, rfl⟩ := List.mem_map.mp hb
        exact (hrest q hq).1
      · rw [hd, Dims.add_qubits]
    simp only [List.map_cons, placesAt, Interpretation.elementAt, dims_mul, ih hrest, hd]
    rw [mul_assoc, ← mul_assoc (I.elementAt start p.2), hcomm.eq]
    simp only [mul_assoc]

/-! Multiplying out -/

theorem elementAt_ofPhase (r : Phase × Pauli) (start : Dims) :
    I.elementAt start (ofPhase r) =
      I.number (.lit r.1.value) • Element.onQubit start.qubits (I.matrix (.pauli r.2)) := by
  obtain ⟨phase, p⟩ := r
  cases phase with
  | one => exact ((congrArg (· • _) I.number_one).trans (one_smul R _)).symm
  | i | minusI => rfl

theorem meaningful_ofPhase (r : Phase × Pauli) : (ofPhase r : Operator κ).Meaningful I := by
  obtain ⟨phase, p⟩ := r
  cases phase <;> simp [ofPhase, I.defined_lit]

omit [Fintype ι] [CommSemiring R] in
theorem dims_ofPhase (r : Phase × Pauli) : (ofPhase r : Operator κ).dims = ⟨1, 0⟩ := by
  obtain ⟨phase, p⟩ := r
  cases phase <;> rfl

theorem preserves_mulPlaces {a b c : Operator κ} (h : mulPlaces? a b = some c) :
    Preserves I (mul a b) c := by
  intro hab
  obtain ⟨ha, hb, _⟩ := meaningful_mul.mp hab
  obtain ⟨hlen, _, hall, hc⟩ := mulPlaces_eq_some h
  have hfst : (a.kronFactors.zip b.kronFactors).map (·.1) = a.kronFactors :=
    List.map_fst_zip (Nat.le_of_eq hlen)
  have hsnd : (a.kronFactors.zip b.kronFactors).map (·.2) = b.kronFactors :=
    List.map_snd_zip (Nat.le_of_eq hlen.symm)
  have hplaces : ∀ p ∈ a.kronFactors.zip b.kronFactors,
      p.1.Meaningful I ∧ p.2.Meaningful I ∧ p.2.dims = p.1.dims := by
    intro p hp
    obtain ⟨s, h1, h2⟩ := isOnSameSubsystems_iff.mp (hall p hp)
    have hmem := List.of_mem_zip hp
    refine ⟨meaningful_iff_kronFactors.mp ha _ hmem.1, meaningful_iff_kronFactors.mp hb _ hmem.2, ?_⟩
    rw [(balanced_of_signature h1).2, (balanced_of_signature h2).2]
  obtain ⟨hm, hd, he⟩ := kronChain_meaning hc (I := I) (by
    intro x hx
    obtain ⟨p, hp, rfl⟩ := List.mem_map.mp hx
    exact meaningful_mul.mpr (hplaces p hp))
  refine ⟨hm, ?_, fun start => ?_⟩
  · rw [hd, dims_mul, dims_eq_sum_kronFactors a, ← hfst, List.map_map, List.map_map, hfst]
    rfl
  · rw [he, placesAt_mul fun p hp => ?_, hfst, hsnd, ← elementAt_eq_placesAt,
      ← elementAt_eq_placesAt]
    · rfl
    · obtain ⟨h1, h2, hd⟩ := hplaces p hp
      exact ⟨h1.1, h2.1, hd⟩

theorem preserves_reducePauli (a : Operator κ) : Preserves I a a.reducePauli := by
  unfold reducePauli
  split
  · rename_i p q
    intro _
    refine ⟨meaningful_ofPhase _, dims_ofPhase _, fun start => ?_⟩
    rw [elementAt_ofPhase, ← Element.onQubit_smul, ← I.matrix_mul, Element.onQubit_mul]
    rfl
  · rename_i x y _
    cases h : mulPlaces? x y with
    | none => exact (preserves_congruence I).refl _
    | some c => exact preserves_mulPlaces h
  · exact (preserves_congruence I).refl _

/-! Reordering -/

theorem dims_of_factorSubsystem {a : Operator κ} {s : Subsystem} (h : a.factorSubsystem? = some s) :
    a.dims = Signature.dims [s] := by
  induction a with
  | spin | mode => cases h; rfl
  | scale c a ih => exact ih h
  | bin op a b iha ihb =>
    cases op with
    | mul => exact iha h
    | add | sub | kron => cases h

/-- Only positions of subsystems that an operator has count for its element. -/
theorem elementAt_congr {a : Operator κ} {s t : Dims} (ha : a.Balanced)
    (hq : a.dims.qubits ≠ 0 → s.qubits = t.qubits) (hm : a.dims.modes ≠ 0 → s.modes = t.modes) :
    I.elementAt s a = I.elementAt t a := by
  induction a generalizing s t with
  | spin => simp only [Interpretation.elementAt, hq (by simp)]
  | mode => simp only [Interpretation.elementAt, hm (by simp)]
  | scale c a ih => simp only [Interpretation.elementAt, ih ha hq hm]
  | bin op a b iha ihb =>
    cases op with
    | kron =>
      simp only [dims_kron, Dims.add_qubits, Dims.add_modes] at hq hm
      simp only [Interpretation.elementAt]
      rw [iha ha.1 (fun h => hq (by omega)) (fun h => hm (by omega)),
        ihb ha.2 (fun h => ?_) (fun h => ?_)]
      · simp only [Dims.add_qubits, hq (by omega)]
      · simp only [Dims.add_modes, hm (by omega)]
    | add | sub | mul =>
      simp only [Interpretation.elementAt]
      rw [iha ha.1 hq hm, ihb ha.2.1 (ha.2.2 ▸ hq) (ha.2.2 ▸ hm)]

/-- A qubit and a mode may change places. -/
theorem elementAt_swap {m b : Operator κ} (hm : m.Balanced) (hb : b.Balanced)
    (hms : m.factorSubsystem? = some .mode) (hbs : b.factorSubsystem? = some .qubit) (s : Dims) :
    I.elementAt s b * I.elementAt (s + b.dims) m = I.elementAt s m * I.elementAt (s + m.dims) b := by
  have hmd := dims_of_factorSubsystem hms
  have hbd := dims_of_factorSubsystem hbs
  have hm' : I.elementAt (s + b.dims) m = I.elementAt s m := by
    refine elementAt_congr hm (fun h => ?_) (fun _ => ?_)
    · rw [hmd] at h
      exact absurd rfl h
    · rw [hbd]
      rfl
  have hb' : I.elementAt (s + m.dims) b = I.elementAt s b := by
    refine elementAt_congr hb (fun _ => ?_) (fun h => ?_)
    · rw [hmd]
      rfl
    · rw [hbd] at h
      exact absurd rfl h
  rw [hm', hb']
  refine (elementAt_commute hm hb ?_).eq.symm
  rw [hmd]
  exact Nat.le_refl _

theorem preserves_gatherQubits (a : Operator κ) : Preserves I a a.gatherQubits := by
  unfold gatherQubits
  split
  · intro h
    simp only [meaningful_kron] at h
    refine ⟨by simp [h], by simp [add_assoc], fun start => ?_⟩
    simp only [Interpretation.elementAt, dims_kron, mul_assoc, add_assoc]
  · split
    · rename_i hswap
      intro h
      simp only [meaningful_kron] at h
      refine ⟨by simp [h], add_right_comm _ _ _, fun start => ?_⟩
      simp only [Interpretation.elementAt, dims_kron, mul_assoc, ← add_assoc]
      rw [elementAt_swap h.1.2.1 h.2.1 hswap.2 hswap.1]
    · exact (preserves_congruence I).refl _
  · split
    · rename_i hswap
      intro h
      simp only [meaningful_kron] at h
      refine ⟨by simp [h], by simp [add_comm], fun start => ?_⟩
      simp only [Interpretation.elementAt]
      rw [elementAt_swap h.1.1 h.2.1 hswap.2 hswap.1]
    · exact (preserves_congruence I).refl _
  · exact (preserves_congruence I).refl _

theorem preserves_normalOrder (a : Operator κ) : Preserves I a a.normalOrder := by
  unfold normalOrder
  split
  · intro h
    simp only [meaningful_mul, dims_mul] at h
    refine ⟨by simp [h], rfl, fun start => ?_⟩
    simp only [Interpretation.elementAt, mul_assoc]
  · split
    · intro h
      simp only [meaningful_mul, dims_mul] at h
      refine ⟨by simpa using h, rfl, fun start => ?_⟩
      simp only [Interpretation.elementAt, mul_assoc]
      rw [(Element.ofLetters_commute _ _).eq]
    · exact (preserves_congruence I).refl _
  · split
    · intro h
      refine ⟨by simp, rfl, fun start => ?_⟩
      simp only [Interpretation.elementAt]
      rw [(Element.ofLetters_commute _ _).eq]
    · exact (preserves_congruence I).refl _
  · exact (preserves_congruence I).refl _

theorem preserves_pruneIdentity (a : Operator κ) : Preserves I a a.pruneIdentity := by
  unfold pruneIdentity
  split
  · intro h
    simp only [meaningful_mul, dims_mode] at h
    refine ⟨h.2.1, h.2.2, fun start => ?_⟩
    simp only [Interpretation.elementAt, Element.letter, map_one, one_mul]
  · intro h
    simp only [meaningful_mul] at h
    refine ⟨h.1, rfl, fun start => ?_⟩
    simp only [Interpretation.elementAt, Element.letter, map_one, mul_one]
  · exact (preserves_congruence I).refl _

end SpinBoson.Operator
