import SpinBoson.Proofs.Coeff.Arithmetic
import SpinBoson.Proofs.Coeff.Value

/-!
Every rule of the normal form of coefficients keeps values, over exact scalars and with the
tolerance zero, and so does the whole way to the normal form.
-/
namespace SpinBoson.Coeff

variable {κ ρ : Type} [RealScalar ρ] [Scalar κ ρ] {β : Bindings κ}

theorem defined_sub {a b : Coeff κ} : (sub a b).Defined β ↔ a.Defined β ∧ b.Defined β := by
  simp [defined_bin, Op.Admits]

theorem defined_pow {a b : Coeff κ} :
    (pow a b).Defined β ↔ a.Defined β ∧ b.Defined β ∧
      Scalar.dividesByZero (a.number β) (b.number β) = false := by
  simp [defined_bin, Op.Admits]

variable [ExactScalar κ]

theorem defined_div {a b : Coeff κ} :
    (div a b).Defined β ↔ a.Defined β ∧ b.Defined β ∧ b.number β ≠ 0 := by
  simp [defined_bin, Op.Admits]

theorem number_div {a b : Coeff κ} (h : (div a b).Defined β) :
    (div a b).number β = a.number β * (1 / b.number β) :=
  (number_bin h).trans (ExactScalar.div_eq_mul (defined_div.mp h).2.2)

variable (β) in
/-- Coefficients mean their values. -/
def valuation : Reading κ κ where
  Defined := Defined β
  number := number β
  scalar := RingHom.id κ
  defined_lit := defined_lit
  number_lit := number_lit
  defined_chain := by
    rintro op a b (rfl | rfl)
    · exact defined_add
    · exact defined_mul
  number_chain := by
    rintro op a b (rfl | rfl) ha hb
    · rw [number_add ha hb]
      exact List.sum_pair.symm
    · rw [number_mul ha hb]
      exact List.prod_pair.symm

variable (β) in
/-- Values have the laws that distributing relies on. -/
def arithmetic : Arithmetic κ κ where
  toReading := valuation β
  power := Scalar.power
  Permits x y := Scalar.dividesByZero x y = false
  defined_neg := defined_neg
  number_neg := number_neg
  defined_sub := defined_sub
  number_sub ha hb := number_bin (defined_sub.mpr ⟨ha, hb⟩)
  defined_div := defined_div
  number_div {a b} h := by
    change _ = a.number β * Scalar.power (b.number β) Scalar.minusOne
    rw [ExactScalar.minusOne_eq, ExactScalar.power_neg_one (defined_div.mp h).2.2]
    exact number_div h
  defined_pow := defined_pow
  number_pow := number_bin
  number_app_lit _ z := number_app (β := β) (defined_lit z)
  permits_of_ne y hx := ExactScalar.dividesByZero_of_ne hx y
  power_scalar _ := rfl
  power_one _ := ExactScalar.power_one _
  power_zero := ExactScalar.power_zero
  power_power := ExactScalar.power_power

theorem refines_distribute (e : Coeff κ) : Refines β e e.distribute :=
  (arithmetic β).keeps_distribute e

/-! Reading -/

omit [ExactScalar κ] in
/-- A value that rests on no unread text is the same whatever that text means. -/
theorem valueWith_of_unread {ofRaw ofRaw' : String → Except EvaluationError κ}
    (hraw : ∀ text z, ofRaw text ≠ .ok z) {e : Coeff κ} {z : κ}
    (h : e.valueWith ofRaw β = .ok z) : e.valueWith ofRaw' β = .ok z := by
  induction e generalizing z with
  | lit | var => exact h
  | raw text => exact absurd h (hraw text z)
  | neg e ih | app f e ih =>
    obtain ⟨x, hx, h⟩ := bind_eq_ok.mp h
    exact bind_eq_ok.mpr ⟨x, ih hx, h⟩
  | bin op a b iha ihb =>
    obtain ⟨x, hx, h⟩ := bind_eq_ok.mp h
    obtain ⟨y, hy, h⟩ := bind_eq_ok.mp h
    exact bind_eq_ok.mpr ⟨x, iha hx, bind_eq_ok.mpr ⟨y, ihb hy, h⟩⟩

omit [ExactScalar κ] in
theorem refines_readRaw {e e' : Coeff κ} (h : e.readRaw = .ok e') : Refines β e e' := by
  cases e with
  | raw text =>
    have hparse : parse text = .ok e' := h
    rintro ⟨z, hz⟩
    have hvalue : textValue β text = .ok z := hz
    simp only [textValue, hparse] at hvalue
    have he' : e'.value β = .ok z := valueWith_of_unread (by simp) hvalue
    exact ⟨⟨z, he'⟩, (number_of_value he').trans (number_of_value hz).symm⟩
  | _ =>
    cases h
    exact (refines_congruence β).refl _

omit [ExactScalar κ] in
theorem refines_readRawRule {e e' : Coeff κ} (h : readRawRule.coeff e = .ok e') :
    Refines β e e' := by
  change e.readRaw.mapError Error.ofParse = .ok e' at h
  cases hread : e.readRaw with
  | error cause =>
    rw [hread] at h
    cases h
  | ok d =>
    rw [hread] at h
    cases h
    exact refines_readRaw hread

/-! The whole way -/

omit [ExactScalar κ] in
theorem respects_ofRule {R : Coeff κ → Coeff κ → Prop} (hR : Congruence R)
    {r : Rule κ (Except Error)} (hr : ∀ e e', r.coeff e = .ok e' → R e e') :
    (Pass.ofRule .post r : Pass (Coeff κ)).Respects R :=
  fun _ _ h => up_related hR hr h

variable [OrderKey κ]

/-- Every step towards the normal form keeps values. -/
theorem normalization_respects {s : Settings ρ} (hs : s.tolerance = 0) :
    (normalization (κ := κ) s).Respects (Refines β) := by
  have hR := refines_congruence β (κ := κ)
  refine ⟨respects_ofRule hR ?_, respects_ofRule hR ?_, respects_ofRule hR ?_,
    respects_ofRule hR ?_, trivial⟩
  · exact fun e e' => refines_readRawRule
  · rintro e _ ⟨⟩
    exact refines_distribute e
  · rintro e _ ⟨⟩
    exact (valuation β).keeps_sortChain e
  · rintro e _ ⟨⟩
    rw [hs]
    exact (valuation β).keeps_collect e

/-- Normalization keeps the value of a coefficient wherever it has one. -/
theorem normalize_refines {s : Settings ρ} (hs : s.tolerance = 0) {e n : Coeff κ}
    (h : e.normalize s = .ok n) : Refines β e n :=
  Pass.run_related (refines_congruence β).refl (refines_congruence β).trans _
    (normalization_respects hs) h

end SpinBoson.Coeff
