import Mathlib.Algebra.BigOperators.Group.List.Basic
import SpinBoson.Coeff.Normal
import SpinBoson.Coeff.Value
import SpinBoson.Proofs.ExactScalar
import SpinBoson.Proofs.Repetition

/-!
Normalization keeps the value of a coefficient, wherever it has one. Over exact scalars, and with
the tolerance zero.
-/
namespace SpinBoson.Coeff

variable {κ ρ : Type} [RealScalar ρ] [Scalar κ ρ] {β : Bindings κ}

/-- Whether a coefficient has a value. -/
def Defined (β : Bindings κ) (e : Coeff κ) : Prop :=
  ∃ z, e.value β = .ok z

/-- The value of a coefficient, zero where it has none. -/
def number (β : Bindings κ) (e : Coeff κ) : κ :=
  match e.value β with
  | .ok z => z
  | .error _ => 0

theorem number_of_value {e : Coeff κ} {z : κ} (h : e.value β = .ok z) : e.number β = z := by
  simp [number, h]

theorem Defined.value_eq {e : Coeff κ} (h : e.Defined β) : e.value β = .ok (e.number β) := by
  obtain ⟨z, hz⟩ := h
  rw [hz, number_of_value hz]

theorem value_eq_ok_iff {e : Coeff κ} {z : κ} :
    e.value β = .ok z ↔ e.Defined β ∧ e.number β = z := by
  constructor
  · intro h
    exact ⟨⟨z, h⟩, number_of_value h⟩
  · rintro ⟨h, rfl⟩
    exact h.value_eq

@[simp]
theorem defined_lit (z : κ) : (lit z).Defined β := ⟨z, rfl⟩

@[simp]
theorem number_lit (z : κ) : (lit z).number β = z := rfl

theorem value_neg_iff {e : Coeff κ} {z : κ} :
    (neg e).value β = .ok z ↔ e.Defined β ∧ -e.number β = z := by
  constructor
  · intro h
    obtain ⟨x, hx, h⟩ := bind_eq_ok.mp h
    cases h
    rw [number_of_value hx]
    exact ⟨⟨x, hx⟩, rfl⟩
  · rintro ⟨h, rfl⟩
    exact bind_eq_ok.mpr ⟨_, h.value_eq, rfl⟩

theorem value_app_iff {f : Func} {e : Coeff κ} {z : κ} :
    (app f e).value β = .ok z ↔ e.Defined β ∧ Scalar.apply f (e.number β) = z := by
  constructor
  · intro h
    obtain ⟨x, hx, h⟩ := bind_eq_ok.mp h
    cases h
    rw [number_of_value hx]
    exact ⟨⟨x, hx⟩, rfl⟩
  · rintro ⟨h, rfl⟩
    exact bind_eq_ok.mpr ⟨_, h.value_eq, rfl⟩

theorem value_bin_iff {op : Op} {a b : Coeff κ} {z : κ} :
    (bin op a b).value β = .ok z ↔
      a.Defined β ∧ b.Defined β ∧ op.value (bin op a b) (a.number β) (b.number β) = .ok z := by
  constructor
  · intro h
    obtain ⟨x, hx, h⟩ := bind_eq_ok.mp h
    obtain ⟨y, hy, h⟩ := bind_eq_ok.mp h
    rw [number_of_value hx, number_of_value hy]
    exact ⟨⟨x, hx⟩, ⟨y, hy⟩, h⟩
  · rintro ⟨ha, hb, h⟩
    exact bind_eq_ok.mpr ⟨_, ha.value_eq, bind_eq_ok.mpr ⟨_, hb.value_eq, h⟩⟩

/-- Whether an operation has a value at two numbers. -/
def Op.Admits (op : Op) (x y : κ) : Prop :=
  match op with
  | .div => (y == 0) = false
  | .pow => Scalar.dividesByZero x y = false
  | _ => True

/-- The value of an operation at two numbers that it admits. -/
def Op.apply (op : Op) (x y : κ) : κ :=
  match op with
  | .add => x + y
  | .sub => x - y
  | .mul => x * y
  | .div => x / y
  | .pow => Scalar.power x y

theorem Op.value_eq_ok_iff {op : Op} {node : Coeff κ} {x y z : κ} :
    op.value node x y = .ok z ↔ op.Admits x y ∧ op.apply x y = z := by
  cases op with
  | add | sub | mul => simp [Op.value, Op.Admits, Op.apply]
  | div =>
    by_cases h : (y == 0) = true
    · simp [Op.value, Op.Admits, h]
    · simp [Op.value, Op.Admits, Op.apply, h]
  | pow =>
    by_cases h : Scalar.dividesByZero x y = true
    · simp [Op.value, Op.Admits, h]
    · simp [Op.value, Op.Admits, Op.apply, h]

@[simp]
theorem defined_neg {e : Coeff κ} : (neg e).Defined β ↔ e.Defined β := by
  simp only [Defined, value_neg_iff]
  exact ⟨fun ⟨_, h, _⟩ => h, fun h => ⟨_, h, rfl⟩⟩

@[simp]
theorem defined_app {f : Func} {e : Coeff κ} : (app f e).Defined β ↔ e.Defined β := by
  simp only [Defined, value_app_iff]
  exact ⟨fun ⟨_, h, _⟩ => h, fun h => ⟨_, h, rfl⟩⟩

theorem defined_bin {op : Op} {a b : Coeff κ} :
    (bin op a b).Defined β ↔
      a.Defined β ∧ b.Defined β ∧ op.Admits (a.number β) (b.number β) := by
  simp only [Defined, value_bin_iff, Op.value_eq_ok_iff]
  exact ⟨fun ⟨_, ha, hb, h, _⟩ => ⟨ha, hb, h⟩, fun ⟨ha, hb, h⟩ => ⟨_, ha, hb, h, rfl⟩⟩

theorem number_neg {e : Coeff κ} (h : e.Defined β) : (neg e).number β = -e.number β :=
  number_of_value (value_neg_iff.mpr ⟨h, rfl⟩)

theorem number_app {f : Func} {e : Coeff κ} (h : e.Defined β) :
    (app f e).number β = Scalar.apply f (e.number β) :=
  number_of_value (value_app_iff.mpr ⟨h, rfl⟩)

theorem number_bin {op : Op} {a b : Coeff κ} (h : (bin op a b).Defined β) :
    (bin op a b).number β = op.apply (a.number β) (b.number β) := by
  obtain ⟨ha, hb, h⟩ := defined_bin.mp h
  exact number_of_value (value_bin_iff.mpr ⟨ha, hb, Op.value_eq_ok_iff.mpr ⟨h, rfl⟩⟩)

@[simp]
theorem defined_add {a b : Coeff κ} : (add a b).Defined β ↔ a.Defined β ∧ b.Defined β := by
  simp [defined_bin, Op.Admits]

@[simp]
theorem defined_mul {a b : Coeff κ} : (mul a b).Defined β ↔ a.Defined β ∧ b.Defined β := by
  simp [defined_bin, Op.Admits]

theorem number_add {a b : Coeff κ} (ha : a.Defined β) (hb : b.Defined β) :
    (add a b).number β = a.number β + b.number β :=
  number_bin (defined_add.mpr ⟨ha, hb⟩)

theorem number_mul {a b : Coeff κ} (ha : a.Defined β) (hb : b.Defined β) :
    (mul a b).number β = a.number β * b.number β :=
  number_bin (defined_mul.mpr ⟨ha, hb⟩)

/-- The second coefficient has the value of the first wherever that has one. -/
def Refines (β : Bindings κ) (e e' : Coeff κ) : Prop :=
  e.Defined β → e'.Defined β ∧ e'.number β = e.number β

theorem refines_congruence (β : Bindings κ) : Congruence (Refines β) where
  refl _ h := ⟨h, rfl⟩
  trans hab hbc h := by
    obtain ⟨hb, heq⟩ := hab h
    obtain ⟨hc, heq'⟩ := hbc hb
    exact ⟨hc, heq'.trans heq⟩
  neg he h := by
    obtain ⟨hd, heq⟩ := he (defined_neg.mp h)
    rw [number_neg hd, number_neg (defined_neg.mp h), heq]
    exact ⟨defined_neg.mpr hd, rfl⟩
  bin ha hb h := by
    obtain ⟨hda, hdb, hop⟩ := defined_bin.mp h
    obtain ⟨hda', heqa⟩ := ha hda
    obtain ⟨hdb', heqb⟩ := hb hdb
    have h' := defined_bin.mpr ⟨hda', hdb', by rw [heqa, heqb]; exact hop⟩
    exact ⟨h', by rw [number_bin h', number_bin h, heqa, heqb]⟩
  app he h := by
    obtain ⟨hd, heq⟩ := he (defined_app.mp h)
    rw [number_app hd, number_app (defined_app.mp h), heq]
    exact ⟨defined_app.mpr hd, rfl⟩

end SpinBoson.Coeff
