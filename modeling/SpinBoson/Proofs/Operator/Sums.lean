import SpinBoson.Canonical.Distributed
import SpinBoson.Proofs.Operator.Signatures
import SpinBoson.Proofs.Operator.Weighing

/-! Sums of terms with at most one coefficient, and walks with rules that act inside the terms. -/
namespace SpinBoson.Operator

variable {κ : Type}

theorem isSum_iff {a : Operator κ} : a.isSum = true ↔ ∃ x y, a = add x y := by
  cases a with
  | bin op x y => cases op <;> simp [isSum]
  | _ => simp [isSum]

theorem isScaled_iff {a : Operator κ} : a.isScaled = true ↔ ∃ c x, a = scale c x := by
  cases a <;> simp [isScaled]

theorem isSum_eq_false_iff {a : Operator κ} : a.isSum = false ↔ ∀ x y, a ≠ add x y := by
  rw [← Bool.not_eq_true, isSum_iff]
  simp only [not_exists, ne_eq]

theorem isScaled_eq_false_iff {a : Operator κ} : a.isScaled = false ↔ ∀ c x, a ≠ scale c x := by
  rw [← Bool.not_eq_true, isScaled_iff]
  simp only [not_exists, ne_eq]

/-- What holds of all operands of a chain, and of an operation on what it holds of, holds of it. -/
theorem of_operands (op : Op) {P : Operator κ → Prop} (hbin : ∀ a b, P a → P b → P (bin op a b))
    {a : Operator κ} (h : ∀ x ∈ a.operands op, P x) : P a := by
  induction a using operands_induction op with
  | single a ha => exact h a (ha.symm ▸ List.mem_singleton_self a)
  | bin a b iha ihb =>
    rw [operands_bin_self, List.forall_mem_append] at h
    exact hbin a b (iha h.1) (ihb h.2)

/-- The operands of a left-nested chain are what it was made of. -/
theorem operands_of_leftNested {op : Op} {xs : List (Operator κ)}
    (hxs : ∀ x ∈ xs, x.operands op = [x]) {a : Operator κ} (h : leftNested? (bin op) xs = some a) :
    a.operands op = xs := by
  induction h using leftNested?_induction with
  | single x => exact hxs x (List.mem_singleton_self x)
  | append xs a x _ ih =>
    rw [List.forall_mem_append, List.forall_mem_singleton] at hxs
    rw [operands_bin_self, ih hxs.1, hxs.2]

/-- Sums of terms with at most one coefficient in front of something with a property. -/
def SumOf (P : Operator κ → Prop) : Operator κ → Prop
  | add a b => a.SumOf P ∧ b.SumOf P
  | scale _ a => P a
  | a => P a

/-- Neither a sum nor behind a coefficient. -/
def IsPlain (a : Operator κ) : Prop :=
  a.isSum = false ∧ a.isScaled = false

variable {P Q : Operator κ → Prop} {a : Operator κ}

theorem sumOf_iff_of_plain (h : a.IsPlain) : a.SumOf P ↔ P a := by
  obtain ⟨hsum, hscaled⟩ := h
  cases a with
  | bin op a b =>
    cases op with
    | add => simp [isSum] at hsum
    | sub | mul | kron => exact Iff.rfl
  | scale => simp [isScaled] at hscaled
  | spin | mode => exact Iff.rfl

theorem SumOf.imp (hPQ : ∀ a, P a → Q a) (h : a.SumOf P) : a.SumOf Q := by
  induction a with
  | spin | mode => exact hPQ _ h
  | scale c a => exact hPQ _ h
  | bin op a b iha ihb =>
    cases op with
    | add => exact ⟨iha h.1, ihb h.2⟩
    | sub | mul | kron => exact hPQ _ h

/-- A property of all nodes holds at those of the terms. -/
theorem SumOf.and_allNodes (h : a.SumOf P) (hQ : a.AllNodes Q) :
    a.SumOf fun x => P x ∧ x.AllNodes Q := by
  induction a with
  | spin | mode => exact ⟨h, hQ⟩
  | scale c a => exact ⟨h, hQ.2⟩
  | bin op a b iha ihb =>
    cases op with
    | add => exact ⟨iha h.1 hQ.2.1, ihb h.2 hQ.2.2⟩
    | sub | mul | kron => exact ⟨h, hQ⟩

/-- The terms of a sum have its signature. -/
theorem SumOf.and_signature {s : Signature} (h : a.SumOf P) (hs : a.signature = .ok s) :
    a.SumOf fun x => P x ∧ x.signature = .ok s := by
  induction a with
  | spin | mode => exact ⟨h, hs⟩
  | scale c a => exact ⟨h, hs⟩
  | bin op a b iha ihb =>
    cases op with
    | add =>
      obtain ⟨ha, hb⟩ := (signature_bin_iff (by decide)).mp hs
      exact ⟨iha h.1 ha, ihb h.2 hb⟩
    | sub | mul | kron => exact ⟨h, hs⟩

/-- A sum of terms with one signature has that signature. -/
theorem SumOf.signature {s : Signature} (h : a.SumOf fun x => x.signature = .ok s) :
    a.signature = .ok s := by
  induction a with
  | spin | mode => exact h
  | scale c a => exact h
  | bin op a b iha ihb =>
    cases op with
    | add => exact (signature_bin_iff (by decide)).mpr ⟨iha h.1, ihb h.2⟩
    | sub | mul | kron => exact h

/-- Whether a rule leaves sums and scaled operators alone. -/
structure ActsInTerms (f : Operator κ → Operator κ) : Prop where
  add : ∀ a b, f (add a b) = add a b
  scale : ∀ c a, f (scale c a) = scale c a

theorem SumOf.rewrite {f : Operator κ → Operator κ} (hf : ActsInTerms f)
    (hPQ : ∀ x, P x → Q (x.rewrite f)) (hplain : ∀ x, Q x → x.IsPlain) (h : a.SumOf P) :
    (a.rewrite f).SumOf Q := by
  have term (x : Operator κ) (hx : P x) : (x.rewrite f).SumOf Q :=
    (sumOf_iff_of_plain (hplain _ (hPQ x hx))).mpr (hPQ x hx)
  induction a with
  | spin | mode => exact term _ h
  | scale c a =>
    rw [Operator.rewrite, hf.scale]
    exact hPQ a h
  | bin op a b iha ihb =>
    cases op with
    | add =>
      rw [Operator.rewrite, hf.add]
      exact ⟨iha h.1, ihb h.2⟩
    | sub | mul | kron => exact term _ h

end SpinBoson.Operator
