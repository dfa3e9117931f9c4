import SpinBoson.Canonical.Distributed
import SpinBoson.Canonical.PauliReduced
import SpinBoson.Proofs.Rewriting

/-! Which operators have a signature, and which rules keep it. -/
namespace SpinBoson.Operator

variable {κ ρ : Type} [RealScalar ρ] [Scalar κ ρ]

section Signatures

omit [RealScalar ρ] [Scalar κ ρ]

theorem signature_kron_iff {a b : Operator κ} {s : Signature} :
    (kron a b).signature = .ok s ↔
      ∃ l r, a.signature = .ok l ∧ b.signature = .ok r ∧ l ++ r = s := by
  constructor
  · intro h
    obtain ⟨l, hl, h⟩ := bind_eq_ok.mp h
    obtain ⟨r, hr, h⟩ := bind_eq_ok.mp h
    cases h
    exact ⟨l, r, hl, hr, rfl⟩
  · rintro ⟨l, r, hl, hr, rfl⟩
    exact bind_eq_ok.mpr ⟨l, hl, bind_eq_ok.mpr ⟨r, hr, rfl⟩⟩

theorem signature_bin_iff {op : Op} (hop : op ≠ .kron) {a b : Operator κ} {s : Signature} :
    (bin op a b).signature = .ok s ↔ a.signature = .ok s ∧ b.signature = .ok s := by
  have hdef : (bin op a b).signature = (do
      let left ← a.signature
      let right ← b.signature
      if left = right then return left else throw (.dimensionMismatch left right)) := by
    cases op with
    | kron => exact absurd rfl hop
    | add | sub | mul => rfl
  rw [hdef]
  constructor
  · intro h
    obtain ⟨l, hl, h⟩ := bind_eq_ok.mp h
    obtain ⟨r, hr, h⟩ := bind_eq_ok.mp h
    split at h
    · rename_i heq
      cases h
      exact ⟨hl, heq ▸ hr⟩
    · cases h
  · rintro ⟨ha, hb⟩
    refine bind_eq_ok.mpr ⟨s, ha, bind_eq_ok.mpr ⟨s, hb, ?_⟩⟩
    rw [if_pos rfl]
    rfl

theorem signature_bin_eq_ok {op : Op} {a b : Operator κ} {s : Signature}
    (h : (bin op a b).signature = .ok s) :
    (∃ l, a.signature = .ok l) ∧ ∃ r, b.signature = .ok r := by
  cases op <;>
  · obtain ⟨l, hl, h⟩ := bind_eq_ok.mp h
    obtain ⟨r, hr, _⟩ := bind_eq_ok.mp h
    exact ⟨⟨l, hl⟩, r, hr⟩

/-- The only way to have no signature is to combine operands on different subsystems. -/
theorem signature_eq_error {a : Operator κ} {e : Error} (h : a.signature = .error e) :
    ∃ l r, e = .dimensionMismatch l r := by
  induction a generalizing e with
  | spin | mode => cases h
  | scale c a ih => exact ih h
  | bin op a b iha ihb =>
    cases ha : a.signature with
    | error e' =>
      obtain ⟨l, r, rfl⟩ := iha ha
      refine ⟨l, r, ?_⟩
      cases op <;> · simp only [signature, ha] at h; cases h; rfl
    | ok l =>
      cases hb : b.signature with
      | error e' =>
        obtain ⟨l, r, rfl⟩ := ihb hb
        refine ⟨l, r, ?_⟩
        cases op <;> · simp only [signature, ha, hb] at h; cases h; rfl
      | ok r =>
        cases op with
        | kron => simp only [signature, ha, hb] at h; cases h
        | add | sub | mul =>
          simp only [signature, ha, hb, ok_bind] at h
          split at h
          · cases h
          · cases h
            exact ⟨l, r, rfl⟩

/-- Whether two operators have the same signature, or both have none. -/
def SameSignature (a b : Operator κ) : Prop :=
  ∀ s, a.signature = .ok s ↔ b.signature = .ok s

theorem sameSignature_congruence : Congruence (SameSignature (κ := κ)) where
  refl _ _ := Iff.rfl
  trans hab hbc s := (hab s).trans (hbc s)
  bin {op a a' b b'} ha hb s := by
    cases op with
    | kron => simp only [signature_kron_iff, ha _, hb _]
    | add | sub | mul =>
      rw [signature_bin_iff (by decide), signature_bin_iff (by decide), ha, hb]
  scale ha s := ha s

/-! Products of chains, place by place -/

theorem isOnSameSubsystems_iff {a b : Operator κ} :
    isOnSameSubsystems a b = true ↔ ∃ s, a.signature = .ok s ∧ b.signature = .ok s := by
  unfold isOnSameSubsystems
  constructor
  · intro h
    split at h
    · rename_i s t ha hb
      exact ⟨s, ha, by rw [hb, of_decide_eq_true h]⟩
    · cases h
  · rintro ⟨s, ha, hb⟩
    simp [ha, hb]

theorem isKron_iff {a : Operator κ} : a.isKron = true ↔ ∃ x y, a = kron x y := by
  cases a with
  | bin op x y => cases op <;> simp [isKron]
  | _ => simp [isKron]

theorem isKron_eq_false_iff {a : Operator κ} : a.isKron = false ↔ ∀ x y, a ≠ kron x y := by
  rw [← Bool.not_eq_true, isKron_iff]
  simp only [not_exists, ne_eq]

theorem kronFactors_kron (a b : Operator κ) :
    (kron a b).kronFactors = a.kronFactors ++ b.kronFactors := operands_bin_self .kron a b

theorem kronFactors_of_not_kron {a : Operator κ} (h : a.isKron = false) : a.kronFactors = [a] := by
  cases a with
  | bin op x y =>
    cases op with
    | kron => cases h
    | add | sub | mul => rfl
  | _ => rfl

theorem mulPlaces_eq_some {a b c : Operator κ} (h : mulPlaces? a b = some c) :
    a.kronFactors.length = b.kronFactors.length ∧ 2 ≤ a.kronFactors.length ∧
      (∀ p ∈ a.kronFactors.zip b.kronFactors, isOnSameSubsystems p.1 p.2 = true) ∧
      kronChain? ((a.kronFactors.zip b.kronFactors).map fun p => mul p.1 p.2) = some c := by
  unfold mulPlaces? at h
  dsimp only at h
  split at h
  · cases h
  · rename_i hlen
    split at h
    · rename_i hall
      rw [List.length_zip] at hlen
      exact ⟨by omega, by omega, List.all_eq_true.mp hall, h⟩
    · cases h

end Signatures

/-! Rules that keep signatures -/

/-- The operations that distribute over sums. -/
def Op.IsProduct (op : Op) : Prop :=
  op = .mul ∨ op = .kron

theorem sameSignature_overSum_left {op : Op} (hop : op.IsProduct) (x y b : Operator κ) :
    SameSignature (bin op (add x y) b) (add (bin op x b) (bin op y b)) := by
  intro s
  rcases hop with rfl | rfl
  · simp only [signature_bin_iff (by decide : Op.mul ≠ .kron),
      signature_bin_iff (by decide : Op.add ≠ .kron)]
    tauto
  · simp only [signature_bin_iff (by decide : Op.add ≠ .kron), signature_kron_iff]
    constructor
    · rintro ⟨l, r, ⟨hx, hy⟩, hb, rfl⟩
      exact ⟨⟨l, r, hx, hb, rfl⟩, l, r, hy, hb, rfl⟩
    · rintro ⟨⟨l, r, hx, hb, rfl⟩, l', r', hy, hb', heq⟩
      obtain rfl : r = r' := Except.ok.inj (hb.symm.trans hb')
      obtain rfl := List.append_cancel_right heq
      exact ⟨l', r, ⟨hx, hy⟩, hb, rfl⟩

theorem sameSignature_overSum_right {op : Op} (hop : op.IsProduct) (a x y : Operator κ) :
    SameSignature (bin op a (add x y)) (add (bin op a x) (bin op a y)) := by
  intro s
  rcases hop with rfl | rfl
  · simp only [signature_bin_iff (by decide : Op.mul ≠ .kron),
      signature_bin_iff (by decide : Op.add ≠ .kron)]
    tauto
  · simp only [signature_bin_iff (by decide : Op.add ≠ .kron), signature_kron_iff]
    constructor
    · rintro ⟨l, r, ha, ⟨hx, hy⟩, rfl⟩
      exact ⟨⟨l, r, ha, hx, rfl⟩, l, r, ha, hy, rfl⟩
    · rintro ⟨⟨l, r, ha, hx, rfl⟩, l', r', ha', hy, heq⟩
      obtain rfl : l = l' := Except.ok.inj (ha.symm.trans ha')
      obtain rfl := List.append_cancel_left heq
      exact ⟨l, r', ha, ⟨hx, hy⟩, rfl⟩

theorem sameSignature_overSum {op : Op} (hop : op.IsProduct) (a b : Operator κ) :
    SameSignature (bin op a b) (overSum op a b) := by
  unfold overSum
  split
  · exact sameSignature_overSum_left hop _ _ _
  · exact sameSignature_overSum_right hop _ _ _
  · exact sameSignature_congruence.refl _

theorem sameSignature_distribute (a : Operator κ) : SameSignature a a.distribute := by
  unfold distribute
  split
  · intro s
    rfl
  · intro s
    rfl
  · intro s
    rw [signature_bin_iff (by decide), signature_bin_iff (by decide)]
    rfl
  · exact sameSignature_overSum (.inl rfl) _ _
  · exact sameSignature_overSum (.inr rfl) _ _
  · intro s
    simp only [signature]
  · exact sameSignature_congruence.refl _

theorem sameSignature_liftScale {op : Op} (hop : op.IsProduct) (a b : Operator κ) :
    SameSignature (bin op a b) (liftScale op a b) := by
  unfold liftScale
  split
  · intro s
    rcases hop with rfl | rfl <;> rfl
  · intro s
    rcases hop with rfl | rfl <;> rfl
  · exact sameSignature_congruence.refl _

theorem sameSignature_gatherCoeffs (a : Operator κ) : SameSignature a a.gatherCoeffs := by
  unfold gatherCoeffs
  split
  · exact sameSignature_congruence.refl _
  · exact sameSignature_liftScale (.inl rfl) _ _
  · exact sameSignature_liftScale (.inr rfl) _ _
  · exact sameSignature_congruence.refl _

end SpinBoson.Operator
