import SpinBoson.Proofs.Coeff.Closed

/-!
Monomials of symbolic factors that are neither sums nor products.
-/
namespace SpinBoson.Coeff

variable {κ ρ : Type}

/-! Symbolic factors -/

/-- Whether a coefficient is neither a literal nor a sum or product. -/
def IsAtom (e : Coeff κ) : Prop :=
  e.literal? = none ∧ ∀ op a b, op.IsChain → e ≠ bin op a b

theorem IsAtom.operands {e : Coeff κ} (h : e.IsAtom) {op : Op} (hop : op.IsChain) :
    e.operands op = [e] :=
  operands_of_not_bin fun a b => h.2 op a b hop

/-- Whether no product has a sum as a factor. -/
def NoSumFactor (e : Coeff κ) : Prop :=
  e.AllNodes fun x => ∀ a b, x = mul a b → (∀ c d, a ≠ add c d) ∧ ∀ c d, b ≠ add c d

theorem factors_of_noSumFactor {e : Coeff κ} (h : e.NoSumFactor) (hsum : ∀ c d, e ≠ add c d) :
    ∀ t ∈ e.factors, t.literal? = none → t.IsAtom := by
  induction e using operands_induction .mul with
  | single e he =>
    rw [factors, he, List.forall_mem_singleton]
    refine fun hlit => ⟨hlit, ?_⟩
    rintro op c d (rfl | rfl)
    · exact hsum c d
    · exact ne_bin_of_operands he c d
  | bin a b iha ihb =>
    obtain ⟨ha, hb⟩ := h.1 a b rfl
    rw [factors, operands_bin_self, List.forall_mem_append]
    exact ⟨iha h.2.1 ha, ihb h.2.2 hb⟩

variable [RealScalar ρ] [Scalar κ ρ]

/-- Whether all factors of a monomial are symbolic and neither sums nor products. -/
def Monomial.Atomic (t : Monomial κ) : Prop :=
  ∀ e ∈ t.2, e.IsAtom

theorem mem_monomial {e f : Coeff κ} : f ∈ e.monomial.2 ↔ f ∈ e.factors ∧ f.literal? = none := by
  rw [monomial, List.mem_filter, Option.isNone_iff_eq_none]

theorem atomic_monomial {e : Coeff κ} (h : e.NoSumFactor) (hsum : ∀ c d, e ≠ add c d) :
    e.monomial.Atomic := by
  intro f hf
  obtain ⟨hmem, hlit⟩ := mem_monomial.mp hf
  exact factors_of_noSumFactor h hsum f hmem hlit

omit [RealScalar ρ] [Scalar κ ρ] in
theorem terms_leftNested_mul {es : List (Coeff κ)} {e : Coeff κ} (h : leftNested? mul es = some e)
    (hes : ∀ t ∈ es, t.terms = [t]) : e.terms = [e] := by
  induction h using leftNested?_induction with
  | single e => exact hes e (List.mem_singleton_self e)
  | append es e t _ _ => exact operands_bin_of_ne (by decide) e t

theorem terms_ofMonomial {t : Monomial κ} (h : t.Atomic) :
    (ofMonomial t).terms = [ofMonomial t] := by
  have hself : ∀ e ∈ t.2, e.terms = [e] := fun e he => (h e he).operands (.inl rfl)
  rcases leftNested_ofMonomial t with ⟨-, hn⟩ | hn
  · exact terms_leftNested_mul hn hself
  · exact terms_leftNested_mul hn (List.forall_mem_cons.mpr ⟨rfl, hself⟩)

variable [ExactRing κ]

theorem monomial_of_factors {e : Coeff κ} {z : κ} {es : List (Coeff κ)}
    (hes : ∀ t ∈ es, t.literal? = none) (h : e.factors = es ∧ z = 1 ∨ e.factors = lit z :: es) :
    e.monomial = (z, es) := by
  obtain ⟨hnum, hsym⟩ := split_of_symbolic hes
  rcases h with ⟨h, rfl⟩ | h
  · rw [monomial, h, hnum, hsym, List.foldl_nil]
  · have hlit : (lit z :: es).filterMap literal? = z :: es.filterMap literal? := rfl
    have hrest : (lit z :: es).filter (fun t => t.literal?.isNone) =
        es.filter fun t => t.literal?.isNone := rfl
    rw [monomial, h, hlit, hrest, hnum, hsym, List.foldl_cons, List.foldl_nil, one_mul]

theorem factors_ofMonomial {t : Monomial κ} (h : t.Atomic) :
    (ofMonomial t).factors = t.2 ∧ t.1 = 1 ∨ (ofMonomial t).factors = lit t.1 :: t.2 := by
  have hself : ∀ e ∈ t.2, e.operands .mul = [e] := fun e he => (h e he).operands (.inr rfl)
  rcases leftNested_ofMonomial t with ⟨hone, hn⟩ | hn
  · exact .inl ⟨operands_leftNested hn hself, eq_of_beq hone⟩
  · exact .inr (operands_leftNested hn (List.forall_mem_cons.mpr ⟨rfl, hself⟩))

/-- A monomial can be read off the coefficient that it makes up. -/
theorem monomial_ofMonomial {t : Monomial κ} (h : t.Atomic) : (ofMonomial t).monomial = t :=
  monomial_of_factors (fun e he => (h e he).1) (factors_ofMonomial h)

end SpinBoson.Coeff
