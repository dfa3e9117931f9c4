import SpinBoson.Canonical.Form
import SpinBoson.Proofs.Operator.Signatures
import SpinBoson.Proofs.Repetition

/-!
Checks return the operator that they are given. The check of subsystems fails exactly on operators
without a signature.
-/
namespace SpinBoson

variable {κ : Type}

theorem Rule.verdict_eq_ok {α : Type} {name : String} {a b : α} {v : Option Violation} :
    Rule.verdict name a v = .ok b ↔ v = none ∧ a = b := by
  cases v <;> simp [Rule.verdict]

namespace Noting

variable {σ α β : Type} {x : Noting σ α} {f : α → Noting σ β} {s s' : σ}

theorem run_bind_ok {a : α} (h : x.run s = (.ok a, s')) : (x >>= f).run s = (f a).run s' := by
  change (ExceptT.bindCont f (x s).1) (x s).2 = _
  rw [show x s = (.ok a, s') from h]
  rfl

theorem run_bind_error {e : Error} (h : x.run s = (.error e, s')) :
    (x >>= f).run s = (.error e, s') := by
  change (ExceptT.bindCont f (x s).1) (x s).2 = _
  rw [show x s = (.error e, s') from h]
  rfl

end Noting

theorem walk_pre {m : Type → Type} {α : Type} [Monad m] [Walkable κ α] (r : Rule κ m) (a : α) :
    walk .pre r a = Walkable.down r .first (Walkable.height κ a + growth) a := rfl

theorem walk_fromRight {m : Type → Type} {α : Type} [Monad m] [Walkable κ α] (r : Rule κ m)
    (a : α) :
    walk (.inOrder true) r a = Walkable.down r .afterRight (Walkable.height κ a + growth) a := rfl

theorem Canonical.check_eq {α : Type} [Walkable κ α] (s : Strategy) (r : Rule κ (Except Error)) :
    (Canonical.check κ s r : Pass α) = .step r.name true (walk s r) := rfl

theorem Canonical.checkSignatures_eq {α : Type} [Walkable κ α] :
    (Canonical.checkSignatures κ : Pass α) = .step "VerifyHilbertSpaceDim" true fun a =>
      ((walk (.inOrder true) (Operator.signatureCheck (κ := κ)) a).run none).1 := rfl

namespace Operator

/-- A walk from the root down goes deep enough for every level of the operator. -/
theorem exists_walk_pre {m : Type → Type} [Monad m] (r : Rule κ m) (a : Operator κ) :
    ∃ n, a.height ≤ n ∧ walk .pre r a = down r .first n a :=
  ⟨_, Nat.le_add_right _ _, walk_pre r a⟩

theorem exists_walk_fromRight {m : Type → Type} [Monad m] (r : Rule κ m) (a : Operator κ) :
    ∃ n, a.height ≤ n ∧ walk (.inOrder true) r a = down r .afterRight n a :=
  ⟨_, Nat.le_add_right _ _, walk_fromRight r a⟩

theorem check_post_eq {r : Rule κ (Except Error)} (hc : ∀ c d, r.coeff c = .ok d → c = d)
    (hr : ∀ a b, r.operator a = .ok b → a = b) {a b : Operator κ}
    (h : walk .post r a = .ok b) : a = b :=
  up_related eq_congruence hc hr h

theorem check_pre_eq {r : Rule κ (Except Error)} (hc : r.coeff = pure)
    (hr : ∀ a b, r.operator a = .ok b → a = b) {a b : Operator κ}
    (h : walk .pre r a = .ok b) : a = b := by
  obtain ⟨n, _, hn⟩ := exists_walk_pre r a
  exact down_related eq_congruence hc hr .first n (hn ▸ h)

section Unchanged

variable {r : Rule κ (Except Error)} {a : Operator κ}

/-- A walk from the leaves up leaves alone what its rule leaves alone at all nodes. -/
theorem up_of_allNodes (hc : ∀ c ∈ a.coeffs, c.up r = .ok c)
    (h : a.AllNodes fun x => r.operator x = .ok x) : a.up r = .ok a := by
  induction a with
  | spin | mode => exact h
  | bin op a b iha ihb =>
    rw [coeffs, List.forall_mem_append] at hc
    simp only [up, iha hc.1 h.2.1, ihb hc.2 h.2.2, ok_bind]
    exact h.1
  | scale c a ih =>
    rw [coeffs, List.forall_mem_cons] at hc
    simp only [up, hc.1, ih hc.2 h.2, ok_bind]
    exact h.1

/-- Whether a property holds at every node that a walk from the root down visits. -/
def AllVisited (descends : Operator κ → Bool) (P : Operator κ → Prop) : Operator κ → Prop
  | spin s => P (spin s)
  | mode l => P (mode l)
  | bin op a b => P (bin op a b) ∧
      (descends (bin op a b) = true → a.AllVisited descends P ∧ b.AllVisited descends P)
  | scale c a => P (scale c a) ∧ (descends (scale c a) = true → a.AllVisited descends P)

theorem AllNodes.allVisited {P : Operator κ → Prop} (h : a.AllNodes P)
    (descends : Operator κ → Bool) : a.AllVisited descends P := by
  induction a with
  | spin | mode => exact h
  | bin op a b iha ihb => exact ⟨h.1, fun _ => ⟨iha h.2.1, ihb h.2.2⟩⟩
  | scale c a ih => exact ⟨h.1, fun _ => ih h.2⟩

theorem AllVisited.imp {descends : Operator κ → Bool} {P Q : Operator κ → Prop}
    (hPQ : ∀ x, P x → Q x) (h : a.AllVisited descends P) : a.AllVisited descends Q := by
  induction a with
  | spin | mode => exact hPQ _ h
  | bin op a b iha ihb => exact ⟨hPQ _ h.1, fun hd => ⟨iha (h.2 hd).1, ihb (h.2 hd).2⟩⟩
  | scale c a ih => exact ⟨hPQ _ h.1, fun hd => ih (h.2 hd)⟩

theorem down_of_allVisited (hc : r.coeff = pure)
    (h : a.AllVisited r.descends fun x => r.operator x = .ok x) (n : Nat) :
    a.down r .first n = .ok a := by
  induction n generalizing a with
  | zero => rfl
  | succ n ih =>
    have step (hroot : r.operator a = .ok a) (hrest : r.descends a = true →
        a.mapOperands (Coeff.down r .first n) (down r .first n) = .ok a) :
        a.down r .first (n + 1) = .ok a := by
      by_cases hd : r.descends a = true
      · simp only [down, hroot, ok_bind, hd, if_true, hrest hd]
      · simp only [down, hroot, ok_bind, hd]
        rfl
    cases a with
    | spin | mode => exact step h fun _ => rfl
    | bin op a b =>
      refine step h.1 fun hd => ?_
      simp only [mapOperands, ih (h.2 hd).1, ih (h.2 hd).2]
      rfl
    | scale c a =>
      refine step h.1 fun hd => ?_
      simp only [mapOperands, Coeff.down_of_coeff_pure hc, ih (h.2 hd)]
      rfl

end Unchanged

/-- Walking from the right, the check meets the signatures of all nodes and changes nothing. -/
theorem signatureCheck_down {n : Nat} {a : Operator κ} (hn : a.height ≤ n)
    (noted : Option Signature) :
    match a.signature with
    | .ok _ => ∃ noted', (down signatureCheck .afterRight n a).run noted = (.ok a, noted')
    | .error _ => ∃ l r noted', (down signatureCheck .afterRight n a).run noted =
        (.error (.dimensionMismatch l r), noted') := by
  induction n generalizing a noted with
  | zero => cases a <;> simp [height] at hn
  | succ n ih =>
    cases a with
    | spin | mode => exact ⟨noted, rfl⟩
    | scale c a =>
      have hrun : ∀ m, (down signatureCheck .afterRight (n + 1) (scale c a)).run m =
          ((return scale c (← down signatureCheck .afterRight n a)) : Noting _ _).run m := by
        intro m
        have hc : (signatureCheck : Rule κ (Noting (Option Signature))).coeff = pure := rfl
        change ((scale c a).mapOperands (Coeff.down signatureCheck .afterRight n)
          (down signatureCheck .afterRight n)).run m = _
        simp only [mapOperands, Coeff.down_of_coeff_pure hc, pure_bind]
      have ha := ih (a := a) (by simp [height] at hn; omega) noted
      simp only [signature]
      split at ha
      · obtain ⟨noted', ha⟩ := ha
        exact ⟨noted', (hrun noted).trans (Noting.run_bind_ok ha)⟩
      · obtain ⟨l, r, noted', ha⟩ := ha
        exact ⟨l, r, noted', (hrun noted).trans (Noting.run_bind_error ha)⟩
    | bin op a b =>
      have ha := fun m => ih (a := a) (by simp [height] at hn; omega) m
      have hb := ih (a := b) (by simp [height] at hn; omega) noted
      split
      · rename_i s hs
        obtain ⟨⟨l, hl⟩, r, hr⟩ := signature_bin_eq_ok hs
        rw [hr] at hb
        obtain ⟨m, hb⟩ := hb
        have ha := ha (some s)
        rw [hl] at ha
        obtain ⟨m', ha⟩ := ha
        refine ⟨m', (Noting.run_bind_ok hb).trans ?_⟩
        have hnode : ((signatureCheck (κ := κ)).operator (bin op a b)).run m =
            (.ok (bin op a b), some s) := by
          simp only [signatureCheck, Rule.ofOperator, hs]
          rfl
        exact (Noting.run_bind_ok hnode).trans (Noting.run_bind_ok ha)
      · rename_i e he
        obtain ⟨l, r, rfl⟩ := signature_eq_error he
        split at hb
        · obtain ⟨m, hb⟩ := hb
          have hnode : ((signatureCheck (κ := κ)).operator (bin op a b)).run m =
              (.error (.dimensionMismatch l r), m) := by
            simp only [signatureCheck, Rule.ofOperator, he]
            rfl
          exact ⟨l, r, m, (Noting.run_bind_ok hb).trans (Noting.run_bind_error hnode)⟩
        · obtain ⟨l', r', m, hb⟩ := hb
          exact ⟨l', r', m, Noting.run_bind_error hb⟩

theorem checkSignatures_run [BEq κ] (a : Operator κ) :
    match a.signature with
    | .ok _ => (Canonical.checkSignatures κ : Pass (Operator κ)).run a = .ok a
    | .error _ => ∃ l r, (Canonical.checkSignatures κ : Pass (Operator κ)).run a =
        .error (.dimensionMismatch l r) := by
  obtain ⟨n, hn, hwalk⟩ := exists_walk_fromRight (signatureCheck (κ := κ)) a
  have h := signatureCheck_down hn none
  rw [Canonical.checkSignatures_eq, Pass.run, hwalk]
  split at h
  · obtain ⟨noted, h⟩ := h
    rw [h]
  · obtain ⟨l, r, noted, h⟩ := h
    exact ⟨l, r, by rw [h]⟩

end Operator

end SpinBoson
