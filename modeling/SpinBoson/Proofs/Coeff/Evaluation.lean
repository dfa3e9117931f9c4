import SpinBoson.Proofs.ClosedForms
import SpinBoson.Proofs.Coeff.Closed
import SpinBoson.Proofs.Coeff.Refinement
import SpinBoson.Proofs.Coeff.Rest

/-!
Over exact scalars a coefficient that has a value has a normal form, whatever the cap on
repetitions, and the normal form has the same value. Without variables it is the value itself.
-/
namespace SpinBoson

namespace Pass

variable {α : Type} [BEq α] {P Q R : α → Prop}

/-- Whether a pass leads from values with one property to values with another one and cannot fail. -/
def Ensures (P : α → Prop) (pass : Pass α) (Q : α → Prop) : Prop :=
  ∀ a, P a → ∃ b, pass.run a = .ok b ∧ Q b

/-- The same for passes that run one after the other. -/
def EnsuresAll (P : α → Prop) (passes : List (Pass α)) (Q : α → Prop) : Prop :=
  ∀ a, P a → ∃ b, runAll passes a = .ok b ∧ Q b

theorem ensuresAll_nil : EnsuresAll P [] P :=
  fun a ha => ⟨a, rfl, ha⟩

theorem ensuresAll_cons {pass : Pass α} {rest : List (Pass α)} (hpass : pass.Ensures P Q)
    (hrest : EnsuresAll Q rest R) : EnsuresAll P (pass :: rest) R := by
  intro a ha
  obtain ⟨b, hb, hQ⟩ := hpass a ha
  obtain ⟨c, hc, hR⟩ := hrest b hQ
  exact ⟨c, (runAll_cons hb).trans hc, hR⟩

/-- A repetition cannot fail if what each iteration leaves is fit for the next one. -/
theorem ensures_fixedPoint {cap : Nat} {pass : Pass α} (hpass : pass.Ensures P P) :
    (fixedPoint cap pass).Ensures P P := by
  have main (left : Nat) : ∀ done a, P a →
      ∃ b c, iterate pass.run left done a = .ok (b, c) ∧ P b := by
    induction left with
    | zero => exact fun done a ha => ⟨a, ⟨false, done⟩, rfl, ha⟩
    | succ left ih =>
      intro done a ha
      obtain ⟨next, hnext, hPnext⟩ := hpass a ha
      by_cases heq : (next == a) = true
      · refine ⟨next, ⟨true, done + 1⟩, ?_, hPnext⟩
        simp only [iterate, hnext, ok_bind, heq, if_true]
        rfl
      · obtain ⟨b, c, hb, hPb⟩ := ih (done + 1) next hPnext
        exact ⟨b, c, by simp [iterate, hnext, heq, hb], hPb⟩
  intro a ha
  obtain ⟨b, c, hb, hPb⟩ := main (iterations cap) 0 a ha
  exact ⟨b, by rw [run, hb]; rfl, hPb⟩

end Pass

namespace Coeff

open Pass

variable {κ ρ : Type} [RealScalar ρ] [Scalar κ ρ]

/-! Normalization does not fail -/

theorem ensures_ofCoeff {P : Coeff κ → Prop} {name : String} {f : Coeff κ → Coeff κ}
    (hf : ∀ e, P e → P (e.rewrite f)) :
    (Pass.ofRule .post (Rule.ofCoeff name fun e => .ok (f e) : Rule κ (Except Error)) :
      Pass (Coeff κ)).Ensures P P :=
  fun e he => ⟨_, run_ofCoeff name f e, hf e he⟩

/-- A readable coefficient has a normal form, whatever the cap. -/
theorem exists_normalize [OrderKey κ] (s : Settings ρ) {e : Coeff κ} (h : e.Readable) :
    ∃ n, e.normalize s = .ok n := by
  have hround : (Pass.chain "math normalization"
      [.ofRule .post (readRawRule (κ := κ)),
        .fixedPoint s.maxIterations (.ofRule .post (distributeRule (κ := κ))),
        .fixedPoint s.maxIterations (.ofRule .post (sortRule (κ := κ))),
        .fixedPoint s.maxIterations (.ofRule .post (collectRule (κ := κ) s.tolerance))] :
      Pass (Coeff κ)).Ensures Readable TextFree := by
    refine ensuresAll_cons (fun x hx => up_readRaw hx) ?_
    refine ensuresAll_cons (ensures_fixedPoint (ensures_ofCoeff fun x =>
      textFree_rewrite fun _ => textFree_distribute)) ?_
    refine ensuresAll_cons (ensures_fixedPoint (ensures_ofCoeff fun x =>
      textFree_rewrite fun _ => textFree_sortChain)) ?_
    refine ensuresAll_cons (ensures_fixedPoint (ensures_ofCoeff fun x =>
      textFree_rewrite fun _ => textFree_collect s.tolerance)) ?_
    exact ensuresAll_nil
  have hrounds : (normalization s).Ensures (Readable (κ := κ)) Readable := by
    refine ensures_fixedPoint fun x hx => ?_
    obtain ⟨b, hb, hfree⟩ := hround x hx
    exact ⟨b, hb, hfree.readable⟩
  obtain ⟨n, hn, -⟩ := hrounds e h
  exact ⟨n, hn⟩

/-! Coefficients without variables -/

/-- Whether no variable occurs, also in text that has not been read yet. -/
def VarFree (e : Coeff κ) : Prop :=
  e.AllNodes fun x => match x with
    | var _ => False
    | raw text => ∀ e' : Coeff κ, parse text = .ok e' → e'.AllNodes fun y => ∀ name, y ≠ var name
    | _ => True

/-- What no variable occurs in has the same value under all bindings. -/
theorem valueWith_of_noVar {ofRaw ofRaw' : String → Except EvaluationError κ} {β β' : Bindings κ}
    {e : Coeff κ} (hvar : e.AllNodes fun x => ∀ name, x ≠ var name)
    (hraw : e.AllNodes fun x => ∀ text, x = raw text → ofRaw text = ofRaw' text) :
    e.valueWith ofRaw β = e.valueWith ofRaw' β' := by
  induction e with
  | lit z => rfl
  | var name => exact absurd rfl (hvar name)
  | raw text => exact hraw text rfl
  | neg e ih | app f e ih => simp only [valueWith, ih hvar.2 hraw.2]
  | bin op a b iha ihb =>
    simp only [valueWith, iha hvar.2.1 hraw.2.1, ihb hvar.2.2 hraw.2.2]

theorem VarFree.value_eq {e : Coeff κ} (h : e.VarFree) (β β' : Bindings κ) :
    e.value β = e.value β' := by
  refine valueWith_of_noVar (h.imp ?_) (h.imp ?_)
  · rintro x hx name rfl
    exact hx
  · rintro x hx text rfl
    simp only [textValue]
    cases hparse : (parse text : Except ParseError (Coeff κ)) with
    | error cause => rfl
    | ok e' => exact valueWith_of_noVar (hx e' hparse) (allNodes_of_forall (fun _ _ _ => rfl) e')

variable [ExactScalar κ] [OrderKey κ] {s : Settings ρ} {β : Bindings κ}

/-- What has a value and no variables is normalized to its value. -/
theorem normalize_of_varFree (hs : s.tolerance = 0) {e : Coeff κ} {z : κ} (h : e.value β = .ok z)
    (hvar : e.VarFree) (hset : e.Settles s) : e.normalize s = .ok (lit z) := by
  have hclosed : e.value noBindings = .ok z := (hvar.value_eq noBindings β).trans h
  have hdefined : e.Defined noBindings := ⟨z, hclosed⟩
  obtain ⟨n, hn, hstable, -⟩ := normalize_settled hdefined.readable hset
  obtain ⟨hndefined, hnumber⟩ := normalize_refines hs hn hdefined
  obtain ⟨w, rfl⟩ := exists_lit_of_normal hstable.normal.textFree hstable.normal.distributed hndefined
  rw [number_lit, number_of_value hclosed] at hnumber
  rw [hn, hnumber]

/--
A coefficient that has a value has a normal form with the same value, whatever the cap, and without
variables the normal form is the value once all repetitions end by themselves.
-/
theorem normalize_value (hs : s.tolerance = 0) {e : Coeff κ} {z : κ} (h : e.value β = .ok z) :
    ∃ n, e.normalize s = .ok n ∧ n.value β = .ok z ∧ (e.VarFree → e.Settles s → n = lit z) := by
  have hdefined : e.Defined β := ⟨z, h⟩
  obtain ⟨n, hn⟩ := exists_normalize s hdefined.readable
  obtain ⟨hndefined, hnumber⟩ := normalize_refines hs hn hdefined
  refine ⟨n, hn, ?_, fun hvar hset => ?_⟩
  · rw [hndefined.value_eq, hnumber, number_of_value h]
  · exact Except.ok.inj (hn.symm.trans (normalize_of_varFree hs h hvar hset))

/-- One over itself is normalized to a literal, once the cap is large enough. -/
theorem normalize_value_one_div_one : ∃ s : Settings ClosedReal, s.tolerance = 0 ∧
    (div (lit 1) (lit 1) : Coeff ClosedNumber).value noBindings = .ok (1 / 1) ∧
    (div (lit 1) (lit 1) : Coeff ClosedNumber).normalize s = .ok (lit (1 / 1)) := by
  have hvalue : (div (lit 1) (lit 1) : Coeff ClosedNumber).value noBindings = .ok (1 / 1) :=
    value_bin_iff.mpr ⟨defined_lit 1, defined_lit 1,
      Op.value_eq_ok_iff.mpr ⟨beq_eq_false_iff_ne.mpr one_ne_zero, rfl⟩⟩
  have hdefined : (div (lit 1) (lit 1) : Coeff ClosedNumber).Defined noBindings := ⟨_, hvalue⟩
  obtain ⟨_, -, hnormal⟩ := exists_normal (⟨0, 0⟩ : Settings ClosedReal) hdefined.readable
  obtain ⟨cap, -, hset⟩ := hnormal.exists
  obtain ⟨n, hn, -, hlit⟩ := normalize_value (s := (⟨0, 0⟩ : Settings ClosedReal).capped cap) rfl hvalue
  obtain rfl := hlit ⟨trivial, trivial, trivial⟩ hset
  exact ⟨_, rfl, hvalue, hn⟩

end Coeff

end SpinBoson
