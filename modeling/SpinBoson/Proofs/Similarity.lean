import SpinBoson.Proofs.Rewriting

/-!
Equality tests on trees. They descend to the literals, whose own test need not be equality, so equal
trees have one skeleton but may differ in their literals.
-/
namespace SpinBoson

variable {κ : Type} [BEq κ]

namespace Coeff

theorem lit_beq {z : κ} {e : Coeff κ} : (lit z == e) = true ↔ ∃ w, e = lit w ∧ (z == w) = true := by
  cases e <;> simp [BEq.beq, instBEqCoeff.beq]

theorem var_beq {name : String} {e : Coeff κ} : (var name == e) = true ↔ e = var name := by
  cases e <;> simp [BEq.beq, instBEqCoeff.beq, eq_comm]

theorem raw_beq {text : String} {e : Coeff κ} : (raw text == e) = true ↔ e = raw text := by
  cases e <;> simp [BEq.beq, instBEqCoeff.beq, eq_comm]

theorem neg_beq {d e : Coeff κ} : (neg d == e) = true ↔ ∃ d', e = neg d' ∧ (d == d') = true := by
  cases e <;> simp [BEq.beq, instBEqCoeff.beq]

theorem bin_beq {op : Op} {a b e : Coeff κ} :
    (bin op a b == e) = true ↔
      ∃ a' b', e = bin op a' b' ∧ (a == a') = true ∧ (b == b') = true := by
  cases e with
  | bin op' a' b' =>
    constructor
    · intro h
      simp [BEq.beq, instBEqCoeff.beq] at h
      obtain ⟨rfl, ha, hb⟩ := h
      exact ⟨a', b', rfl, ha, hb⟩
    · rintro ⟨_, _, ⟨⟩, ha, hb⟩
      simp [BEq.beq, instBEqCoeff.beq] at ha hb ⊢
      exact ⟨ha, hb⟩
  | _ => simp [BEq.beq, instBEqCoeff.beq]

theorem app_beq {f : Func} {d e : Coeff κ} :
    (app f d == e) = true ↔ ∃ d', e = app f d' ∧ (d == d') = true := by
  cases e with
  | app f' d' =>
    constructor
    · intro h
      simp [BEq.beq, instBEqCoeff.beq] at h
      obtain ⟨rfl, hd⟩ := h
      exact ⟨d', rfl, hd⟩
    · rintro ⟨_, ⟨⟩, hd⟩
      simp [BEq.beq, instBEqCoeff.beq] at hd ⊢
      exact hd
  | _ => simp [BEq.beq, instBEqCoeff.beq]

/-- The tree without the values of its literals. -/
def skeleton : Coeff κ → Coeff Unit
  | lit _ => lit ()
  | var name => var name
  | raw text => raw text
  | neg e => neg e.skeleton
  | bin op a b => bin op a.skeleton b.skeleton
  | app f e => app f e.skeleton

theorem skeleton_of_beq {e e' : Coeff κ} (h : (e == e') = true) : e.skeleton = e'.skeleton := by
  induction e generalizing e' with
  | lit z => obtain ⟨w, rfl, _⟩ := lit_beq.mp h; rfl
  | var name => rw [var_beq.mp h]
  | raw text => rw [raw_beq.mp h]
  | neg d ih =>
    obtain ⟨d', rfl, hd⟩ := neg_beq.mp h
    simp only [skeleton, ih hd]
  | bin op a b iha ihb =>
    obtain ⟨a', b', rfl, ha, hb⟩ := bin_beq.mp h
    simp only [skeleton, iha ha, ihb hb]
  | app f d ih =>
    obtain ⟨d', rfl, hd⟩ := app_beq.mp h
    simp only [skeleton, ih hd]

end Coeff

namespace Operator

theorem spin_beq {s : Spin} {a : Operator κ} : (spin s == a) = true ↔ a = spin s := by
  cases a <;> simp [BEq.beq, instBEqOperator.beq, eq_comm]

theorem mode_beq {l : Ladder} {a : Operator κ} : (mode l == a) = true ↔ a = mode l := by
  cases a <;> simp [BEq.beq, instBEqOperator.beq, eq_comm]

theorem bin_beq {op : Op} {a b d : Operator κ} :
    (bin op a b == d) = true ↔
      ∃ a' b', d = bin op a' b' ∧ (a == a') = true ∧ (b == b') = true := by
  cases d with
  | bin op' a' b' =>
    constructor
    · intro h
      simp [BEq.beq, instBEqOperator.beq] at h
      obtain ⟨rfl, ha, hb⟩ := h
      exact ⟨a', b', rfl, ha, hb⟩
    · rintro ⟨_, _, ⟨⟩, ha, hb⟩
      simp [BEq.beq, instBEqOperator.beq] at ha hb ⊢
      exact ⟨ha, hb⟩
  | _ => simp [BEq.beq, instBEqOperator.beq]

theorem scale_beq {c : Coeff κ} {a d : Operator κ} :
    (scale c a == d) = true ↔
      ∃ c' a', d = scale c' a' ∧ (c == c') = true ∧ (a == a') = true := by
  cases d <;> simp [BEq.beq, instBEqOperator.beq]

/-- An operator whose coefficients equal themselves equals itself. -/
theorem beq_self_of_coeffs {a : Operator κ} (h : ∀ c ∈ a.coeffs, (c == c) = true) :
    (a == a) = true := by
  induction a with
  | spin s => exact spin_beq.mpr rfl
  | mode l => exact mode_beq.mpr rfl
  | bin op a b iha ihb =>
    rw [coeffs, List.forall_mem_append] at h
    exact bin_beq.mpr ⟨a, b, rfl, iha h.1, ihb h.2⟩
  | scale c a ih =>
    rw [coeffs, List.forall_mem_cons] at h
    exact scale_beq.mpr ⟨c, a, rfl, h.1, ih h.2⟩

/-- The tree without its coefficients. -/
def skeleton : Operator κ → Operator Unit
  | spin s => spin s
  | mode l => mode l
  | bin op a b => bin op a.skeleton b.skeleton
  | scale _ a => scale (.lit ()) a.skeleton

theorem skeleton_of_beq {a a' : Operator κ} (h : (a == a') = true) : a.skeleton = a'.skeleton := by
  induction a generalizing a' with
  | spin s => rw [spin_beq.mp h]
  | mode l => rw [mode_beq.mp h]
  | bin op a b iha ihb =>
    obtain ⟨a', b', rfl, ha, hb⟩ := bin_beq.mp h
    simp only [skeleton, iha ha, ihb hb]
  | scale c a ih =>
    obtain ⟨c', a', rfl, _, ha⟩ := scale_beq.mp h
    simp only [skeleton, ih ha]

end Operator

end SpinBoson
