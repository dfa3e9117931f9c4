import Mathlib
import SpinBoson.Proofs.Coeff.NormalForm
import SpinBoson.Proofs.Coeff.Reading

/-!
Coefficients as polynomials in those of their parts that are neither literals nor sums nor products.
Each step of normalization maps such parts to coefficients and is, as a map of polynomials, the
substitution that this makes. So the polynomial of a normal form is made of those of the operands'
normal forms in the way in which the coefficient is made of its operands.
-/
namespace SpinBoson.Coeff

open MvPolynomial Pass

variable {κ ρ : Type} [RealScalar ρ] [Scalar κ ρ] [ExactRing κ]

/-- The polynomial of a coefficient, with a variable for each part that is no sum or product. -/
noncomputable def polynomial : Coeff κ → MvPolynomial (Coeff κ) κ
  | lit z => C z
  | add a b => a.polynomial + b.polynomial
  | mul a b => a.polynomial * b.polynomial
  | e => X e

theorem polynomial_chain {op : Op} (hop : op.IsChain) (a b : Coeff κ) :
    (bin op a b).polynomial = op.total [a.polynomial, b.polynomial] := by
  rcases hop with rfl | rfl
  · exact List.sum_pair.symm
  · exact List.prod_pair.symm

/-- Every coefficient means its polynomial. -/
noncomputable def symbolic : Reading κ (MvPolynomial (Coeff κ) κ) where
  Defined _ := True
  number := polynomial
  scalar := C
  defined_lit _ := trivial
  number_lit _ := rfl
  defined_chain _ := (and_self_iff).symm
  number_chain hop _ _ := polynomial_chain hop _ _

/-! Substitutions -/

/-- Maps of coefficients that act on polynomials as a substitution. -/
structure Substitutes (F : Coeff κ → Coeff κ) : Prop where
  lit : ∀ z, (F (lit z)).polynomial = C z
  chain : ∀ {op : Op} {a b : Coeff κ}, op.IsChain →
    (F (bin op a b)).polynomial = op.total [(F a).polynomial, (F b).polynomial]

theorem substitutes_id : Substitutes (id : Coeff κ → Coeff κ) where
  lit _ := rfl
  chain hop := polynomial_chain hop _ _

/-- The substitution of the images for the variables. -/
noncomputable def substitution (F : Coeff κ → Coeff κ) :
    MvPolynomial (Coeff κ) κ →ₐ[κ] MvPolynomial (Coeff κ) κ :=
  aeval fun x => (F x).polynomial

theorem substitution_total (F : Coeff κ → Coeff κ) (op : Op)
    (ps : List (MvPolynomial (Coeff κ) κ)) :
    substitution F (op.total ps) = op.total (ps.map (substitution F)) := by
  cases op with
  | mul => exact map_list_prod (substitution F) ps
  | _ => exact map_list_sum (substitution F) ps

/-- The polynomial of the image comes from that of the coefficient by substitution. -/
theorem Substitutes.polynomial_eq {F : Coeff κ → Coeff κ} (hF : Substitutes F) (e : Coeff κ) :
    (F e).polynomial = substitution F e.polynomial := by
  have atom {e : Coeff κ} (he : e.polynomial = X e) :
      (F e).polynomial = substitution F e.polynomial := by
    rw [he, substitution, aeval_X]
  induction e with
  | lit z =>
    rw [hF.lit, polynomial]
    exact (algHom_C (substitution F) z).symm
  | var | raw | neg | app => exact atom rfl
  | bin op a b iha ihb =>
    by_cases hop : op.IsChain
    · rw [hF.chain hop, polynomial_chain hop, iha, ihb, substitution_total]
      rfl
    · refine atom ?_
      cases op with
      | add => exact absurd (.inl rfl) hop
      | mul => exact absurd (.inr rfl) hop
      | sub | div | pow => rfl

theorem Substitutes.comp {F G : Coeff κ → Coeff κ} (hF : Substitutes F) (hG : Substitutes G) :
    Substitutes (F ∘ G) where
  lit z := by
    rw [Function.comp_apply, hF.polynomial_eq, hG.lit]
    exact algHom_C (substitution F) z
  chain {op a b} hop := by
    simp only [Function.comp_apply]
    rw [hF.polynomial_eq, hG.chain hop, hF.polynomial_eq (G a), hF.polynomial_eq (G b)]
    exact substitution_total F op _

theorem Substitutes.iterate {F : Coeff κ → Coeff κ} (hF : Substitutes F) (n : Nat) :
    Substitutes F^[n] := by
  induction n with
  | zero => exact substitutes_id
  | succ n ih => exact ih.comp hF

/-- A walk substitutes if its rule keeps the polynomials of literals, sums and products. -/
theorem substitutes_rewrite {f : Coeff κ → Coeff κ} (hlit : ∀ z, f (lit z) = lit z)
    (hchain : ∀ {op : Op} (a b : Coeff κ), op.IsChain →
      symbolic.Keeps (bin op a b) (f (bin op a b))) :
    Substitutes (rewrite f) where
  lit z := by rw [rewrite, hlit, polynomial]
  chain hop := by
    rw [rewrite, ← polynomial_chain hop]
    exact (hchain _ _ hop trivial).2

/-! Normalization -/

/-- Reads the text at a node, if it can be read. -/
def readOr (e : Coeff κ) : Coeff κ :=
  match e.readRaw with
  | .ok e' => e'
  | .error _ => e

omit [ExactRing κ] in
theorem up_readOr {e e' : Coeff κ} (h : e.up readRawRule = .ok e') : e' = e.rewrite readOr := by
  have hnode {x x' : Coeff κ} (h : x.readRaw.mapError Error.ofParse = .ok x') : x' = x.readOr := by
    unfold readOr
    cases hx : x.readRaw with
    | error cause =>
      rw [hx] at h
      cases h
    | ok d =>
      rw [hx] at h
      exact (Except.ok.inj h).symm
  induction e generalizing e' with
  | lit | var | raw => exact hnode h
  | neg e ih | app f e ih =>
    obtain ⟨d, hd, h⟩ := bind_eq_ok.mp h
    rw [rewrite, ← ih hd]
    exact hnode h
  | bin op a b iha ihb =>
    obtain ⟨c, hc, h⟩ := bind_eq_ok.mp h
    obtain ⟨d, hd, h⟩ := bind_eq_ok.mp h
    rw [rewrite, ← iha hc, ← ihb hd]
    exact hnode h

theorem run_repeated {name : String} {f : Coeff κ → Coeff κ} {cap : Nat} {e n : Coeff κ}
    (h : (Pass.fixedPoint cap
      (.ofRule .post (Rule.ofCoeff name fun e => .ok (f e) : Rule κ (Except Error)))).run e =
        .ok n) :
    n = (rewrite f)^[iterations cap] e :=
  run_fixedPoint_eq (fun x _ hy => (Except.ok.inj ((run_ofCoeff name f x).symm.trans hy)).symm) h

variable [OrderKey κ]

/-- One round with all its iterations. -/
def fullRound (s : Settings ρ) : Coeff κ → Coeff κ :=
  (rewrite (collect s.tolerance))^[iterations s.maxIterations] ∘
    (rewrite sortChain)^[iterations s.maxIterations] ∘
      (rewrite distribute)^[iterations s.maxIterations] ∘ rewrite readOr

/-- The result of normalization where it succeeds. -/
def normalForm (s : Settings ρ) : Coeff κ → Coeff κ :=
  (fullRound s)^[iterations s.maxIterations]

theorem normalize_eq {s : Settings ρ} {e n : Coeff κ} (h : e.normalize s = .ok n) :
    n = e.normalForm s := by
  refine run_fixedPoint_eq (fun x y hy => ?_) h
  obtain ⟨x₁, h₁, hy⟩ := bind_eq_ok.mp hy
  obtain ⟨x₂, h₂, hy⟩ := bind_eq_ok.mp hy
  obtain ⟨x₃, h₃, hy⟩ := bind_eq_ok.mp hy
  obtain ⟨x₄, h₄, hy⟩ := bind_eq_ok.mp hy
  cases hy
  rw [run_repeated h₄, run_repeated h₃, run_repeated h₂, up_readOr h₁]
  rfl

theorem substitutes_normalForm {s : Settings ρ} (hs : s.tolerance = 0) :
    Substitutes (normalForm (κ := κ) s) := by
  have hread : Substitutes (rewrite (readOr (κ := κ))) :=
    substitutes_rewrite (fun _ => rfl) fun _ _ _ => .refl _
  have hdistribute : Substitutes (rewrite (distribute (κ := κ))) :=
    substitutes_rewrite (fun _ => rfl) fun a b hop => symbolic.keeps_distribute_chain hop a b
  have hsort : Substitutes (rewrite (sortChain (κ := κ))) :=
    substitutes_rewrite (fun _ => rfl) fun _ _ _ => symbolic.keeps_sortChain _
  have hcollect : Substitutes (rewrite (collect (κ := κ) s.tolerance)) := by
    rw [hs]
    exact substitutes_rewrite (fun _ => rfl) fun _ _ _ => symbolic.keeps_collect _
  exact ((hcollect.iterate _).comp
    ((hsort.iterate _).comp ((hdistribute.iterate _).comp hread))).iterate _

/-- Every coefficient means the polynomial of its normal form. -/
noncomputable def normalized (s : Settings ρ) (hs : s.tolerance = 0) :
    Reading κ (MvPolynomial (Coeff κ) κ) where
  Defined _ := True
  number e := (e.normalForm s).polynomial
  scalar := C
  defined_lit _ := trivial
  number_lit := (substitutes_normalForm hs).lit
  defined_chain _ := (and_self_iff).symm
  number_chain hop _ _ := (substitutes_normalForm hs).chain hop

end SpinBoson.Coeff
