import SpinBoson.Proofs.Coeff.Collected
import SpinBoson.Proofs.Coeff.Rest

/-!
The shape of normal forms: sums of products of literals, variables, powers and functions, each chain
nested to the left and sorted, with one number in front of a product and no two terms alike.
Normalization that settles leads to this shape and leaves it alone.
-/
namespace SpinBoson.Coeff

variable {κ ρ : Type} [RealScalar ρ] [Scalar κ ρ]

/-- The number in front of a product, or one if there is none. -/
def leading (e : Coeff κ) : κ :=
  match e.factors with
  | lit z :: _ => z
  | _ => 1

/-- What a node of a normal form looks like. -/
structure HasShape [OrderKey κ] (tolerance : ρ) (e : Coeff κ) : Prop where
  noText : ∀ text, e ≠ raw text
  noNeg : ∀ a, e ≠ neg a
  noSub : ∀ a b, e ≠ sub a b
  /-- What is divided is divided by zero. -/
  divisor : ∀ a b, e = div a b → ∃ z, b = lit z ∧ (z == 0) = true
  noSumFactor : ∀ a b, e = mul a b → ∀ f ∈ e.factors, ∀ c d, f ≠ add c d
  inOrder : e.InOrder
  /-- The only number among the factors stands in front of the symbolic ones, and is not one. -/
  numbers : ∀ a b, e = mul a b →
    e.factors = e.monomial.2 ∨ ∃ z, e.factors = lit z :: e.monomial.2 ∧ (z == 1) = false
  productSignificant : ∀ a b, e = mul a b → Scalar.isNegligible tolerance e.leading = false
  termsDiffer : ∀ a b, e = add a b →
    e.terms.Pairwise fun s t => ¬ (s.monomial.2 == t.monomial.2) = true
  termsSignificant : ∀ a b, e = add a b →
    ∀ t ∈ e.terms, Scalar.isNegligible tolerance t.leading = false
  argument : ∀ f a, e = app f a → a.literal? = none
  /-- Powers of literals would divide by zero. -/
  powerOfLiterals : ∀ x y, e = pow (lit x) (lit y) → Scalar.dividesByZero x y = true
  exponent : ∀ a z, e = pow a (lit z) → (z == 0) = false ∧ (z == 1) = false
  powerOfPower : ∀ a x y, e = pow (pow a (lit x)) (lit y) → Scalar.isInteger y = false

/-! What distributing leaves alone -/

section Distributed

theorem ne_neg_of_distribute {e : Coeff κ} (h : e.distribute = e) (a : Coeff κ) : e ≠ neg a := by
  rintro rfl
  cases a <;> simp [distribute] at h

theorem ne_sub_of_distribute {e : Coeff κ} (h : e.distribute = e) (a b : Coeff κ) :
    e ≠ sub a b := by
  rintro rfl
  cases h

theorem divisor_of_distribute {a b : Coeff κ} (h : (div a b).distribute = div a b) :
    ∃ z, b = lit z ∧ (z == 0) = true := by
  change distributeQuotient a b = div a b at h
  unfold distributeQuotient at h
  split at h
  · rename_i y
    split at h
    · exact ⟨y, rfl, ‹_›⟩
    · split at h <;> cases h
  · cases h
  · cases h

theorem argument_of_distribute {f : Func} {a : Coeff κ} (h : (app f a).distribute = app f a) :
    a.literal? = none := by
  cases a with
  | lit z => cases h
  | _ => rfl

theorem ne_pow_self (a b : Coeff κ) : a ≠ pow a b := by
  intro h
  have hweight : a.weight = a.weight * b.weight := congrArg weight h
  have ha := two_le_weight a
  have hb := two_le_weight b
  nlinarith

theorem exponent_of_distribute {a : Coeff κ} {z : κ}
    (h : (pow a (lit z)).distribute = pow a (lit z)) : (z == 0) = false ∧ (z == 1) = false := by
  change distributePower a (lit z) = pow a (lit z) at h
  unfold distributePower at h
  split at h
  · exact absurd h (ne_pow_self a (lit z))
  · rename_i hone
    split at h
    · cases h
    · rename_i hzero
      exact ⟨Bool.eq_false_iff.mpr hzero, Bool.eq_false_iff.mpr hone⟩

theorem powerOfLiterals_of_distribute {x y : κ}
    (h : (pow (lit x) (lit y)).distribute = pow (lit x) (lit y)) :
    Scalar.dividesByZero x y = true := by
  change distributePower (lit x) (lit y) = _ at h
  unfold distributePower at h
  split at h
  · cases h
  · split at h
    · cases h
    · simp only at h
      split at h
      · assumption
      · cases h

theorem powerOfPower_of_distribute {a : Coeff κ} {x y : κ}
    (h : (pow (pow a (lit x)) (lit y)).distribute = pow (pow a (lit x)) (lit y)) :
    Scalar.isInteger y = false := by
  change distributePower (pow a (lit x)) (lit y) = _ at h
  unfold distributePower at h
  split at h
  · exact absurd h (ne_pow_self (pow a (lit x)) (lit y))
  · split at h
    · cases h
    · simp only at h
      split at h
      · exact absurd (bin.inj h).2.1 (ne_pow_self a (lit x))
      · simp_all

end Distributed

/-! What collecting leaves alone -/

section Collected

theorem leading_of_symbolic {e : Coeff κ} (h : e.factors = e.monomial.2) : e.leading = 1 := by
  unfold leading
  cases hops : e.factors with
  | nil => rfl
  | cons f rest =>
    have hf : f ∈ e.monomial.2 := h ▸ hops ▸ List.mem_cons_self
    cases f with
    | lit z => cases (mem_monomial.mp hf).2
    | _ => rfl

theorem leading_of_number {e : Coeff κ} {z : κ} {es : List (Coeff κ)} (h : e.factors = lit z :: es) :
    e.leading = z := by
  rw [leading, h]

variable [LawfulTest κ]

omit [LawfulTest κ] in
/-- The number in front is the product of all numbers, if collecting does not make this lighter. -/
theorem isNegligible_leading [LawfulMagnitude κ] (tolerance : ρ) {e : Coeff κ}
    (hfirst : LiteralsFirst e.factors) (hfin : e.FiniteLiterals)
    (hweight : (ofMonomial e.monomial).weight = e.weight) :
    Scalar.isNegligible tolerance e.leading = Scalar.isNegligible tolerance e.monomial.1 := by
  rcases monomial_cases hfirst with ⟨hall, hone⟩ | ⟨z, hall, hz⟩ | hlt
  · rw [leading_of_symbolic hall, hone]
  · have hmem : lit z ∈ e.factors := hall ▸ List.mem_cons_self
    have hfinite : (1 * z == z) = true := (hfin.operands (lit z) hmem).root z rfl
    rw [leading_of_number hall, hz, Scalar.isNegligible, Scalar.isNegligible,
      LawfulMagnitude.magnitude_congr hfinite]
  · exact absurd hweight (Nat.ne_of_lt hlt)

/-- A number one in front of symbolic factors is left out. -/
theorem ne_one_of_weight {e : Coeff κ} {z : κ} (hfin : e.FiniteLiterals)
    (hall : e.factors = lit z :: e.monomial.2) (hz : e.monomial.1 = 1 * z)
    (hne : e.monomial.2 ≠ []) (hweight : (ofMonomial e.monomial).weight = e.weight) :
    (z == 1) = false := by
  refine Bool.eq_false_iff.mpr fun hone => ?_
  have hmem : lit z ∈ e.factors := hall ▸ List.mem_cons_self
  have hfinite : (1 * z == z) = true := (hfin.operands (lit z) hmem).root z rfl
  have hone' : (1 * z == 1) = true := PartialEquivBEq.trans hfinite hone
  have hheavy : e.weight = 2 * weights e.monomial.2 := by
    rw [weight_factors, hall, List.map_cons, List.prod_cons]
    rfl
  have hlight := weight_leftNested_mul (leftNested_ofMonomial_of_one (hz ▸ hone') hne)
  have hpos := one_le_weights e.monomial.2
  omega

variable [OrderKey κ]

omit [LawfulTest κ] [OrderKey κ] in
theorem weight_of_collect {op : Op} {a b n : Coeff κ} (h : unlessEqual (bin op a b) n = bin op a b) :
    n.weight = (bin op a b).weight := by
  rw [← weight_unlessEqual (bin op a b) n, h]

omit [LawfulTest κ] in
theorem product_of_collect {tolerance : ρ} {a b : Coeff κ}
    (h : (mul a b).collect tolerance = mul a b) :
    Scalar.isNegligible tolerance (mul a b).monomial.1 = false ∧
      (ofMonomial (mul a b).monomial).weight = (mul a b).weight := by
  have hweight := weight_of_collect h
  obtain ⟨hlarge, heq⟩ :=
    (collectProduct_le tolerance a b).resolve_left (Nat.not_lt.mpr hweight.ge)
  exact ⟨hlarge, heq ▸ hweight⟩

theorem sum_of_collect {tolerance : ρ} {a b : Coeff κ} (h : (add a b).collect tolerance = add a b) :
    (add a b).TermsStay tolerance ∧
      ∀ t ∈ (add a b).terms, (ofMonomial t.monomial).weight = t.weight := by
  have hweight := weight_of_collect h
  have hstay := (collectSum_lighter tolerance a b).resolve_left (Nat.not_lt.mpr hweight.ge)
  have hr := weight_leftNested_add hstay.collected
  rw [hweight, List.map_map] at hr
  exact ⟨hstay, weight_of_sum_eq (hr.symm.trans (weight_terms (add a b)))⟩

end Collected

/-! Normal forms -/

section Normal

variable [OrderKey κ]

theorem IsStable.deep {tolerance : ρ} {n : Coeff κ} (h : n.IsStable tolerance) :
    n.AllNodes fun x => x.IsStable tolerance := by
  obtain ⟨⟨hfree, hdist, horder, hcoll⟩, hfin⟩ := h
  have hall := (((AllNodes.deep hfree).and hdist.deep).and (horder.deep.and hcoll.deep)).and
    (AllNodes.deep hfin)
  exact hall.imp fun _ ⟨⟨⟨hfree, hdist⟩, horder, hcoll⟩, hfin⟩ => ⟨⟨hfree, hdist, horder, hcoll⟩, hfin⟩

variable [LawfulTest κ] [LawfulOrderKey κ] [LawfulMagnitude κ]

/-- A normal form has the shape of one at its root. -/
theorem IsStable.hasShape {tolerance : ρ} {e : Coeff κ} (h : e.IsStable tolerance) :
    e.HasShape tolerance := by
  obtain ⟨⟨hfree, hdist, horder, hcoll⟩, hfin⟩ := h
  have hliteralsFirst : ∀ t : Coeff κ, t.AllNodes InOrder → LiteralsFirst t.factors :=
    fun t ht => ht.root.gathered.literalsFirst
  have hroot := hdist.root
  refine
    { noText := hfree.root
      noNeg := ne_neg_of_distribute hroot
      noSub := ne_sub_of_distribute hroot
      divisor := ?_
      noSumFactor := ?_
      inOrder := horder.root
      numbers := ?_
      productSignificant := ?_
      termsDiffer := ?_
      termsSignificant := ?_
      argument := ?_
      powerOfLiterals := ?_
      exponent := ?_
      powerOfPower := ?_ }
  · rintro a b rfl
    exact divisor_of_distribute hroot
  · rintro a b rfl f hf c d rfl
    have hatom := factors_of_noSumFactor (noSumFactor_of_distributed hdist)
      (fun _ _ heq => by cases heq) _ hf rfl
    exact hatom.2 .add c d (.inl rfl) rfl
  · rintro a b rfl
    obtain ⟨-, hweight⟩ := product_of_collect hcoll.root
    rcases monomial_cases (hliteralsFirst _ horder) with ⟨hall, -⟩ | ⟨z, hall, hz⟩ | hlt
    · exact .inl hall
    · refine .inr ⟨z, hall, ne_one_of_weight hfin hall hz (fun hnil => ?_) hweight⟩
      have hlen := two_le_length_operands .mul a b
      rw [show (mul a b).operands .mul = _ from hall, hnil] at hlen
      exact absurd hlen (by decide : ¬ 2 ≤ 1)
    · exact absurd hweight (Nat.ne_of_lt hlt)
  · rintro a b rfl
    obtain ⟨hlarge, hweight⟩ := product_of_collect hcoll.root
    rw [isNegligible_leading tolerance (hliteralsFirst _ horder) hfin hweight]
    exact hlarge
  · rintro a b rfl
    obtain ⟨hstay, -⟩ := sum_of_collect hcoll.root
    exact List.pairwise_map.mp (Groups.pairwise_of_ofMonomials hstay.groups)
  · rintro a b rfl t ht
    obtain ⟨hstay, hweight⟩ := sum_of_collect hcoll.root
    rw [isNegligible_leading tolerance (hliteralsFirst t (horder.operands t ht))
      (hfin.operands t ht) (hweight t ht)]
    exact hstay.significant t ht
  · rintro f a rfl
    exact argument_of_distribute hroot
  · rintro x y rfl
    exact powerOfLiterals_of_distribute hroot
  · rintro a z rfl
    exact exponent_of_distribute hroot
  · rintro a x y rfl
    exact powerOfPower_of_distribute hroot

/--
When all repetitions end by themselves over finite literals, all nodes of what normalization leads to
have the shape of a normal form, and normalizing it again changes nothing. Only text that cannot be
read keeps normalization from leading anywhere.
-/
theorem normalize_hasShape {s : Settings ρ} {c : Coeff κ} (hset : c.Settles s) :
    (c.Readable → ∃ n, c.normalize s = .ok n) ∧
      ∀ n, c.normalize s = .ok n → n.AllNodes (HasShape s.tolerance) ∧ n.normalize s = .ok n := by
  refine ⟨fun hread => ?_, fun n hn => ?_⟩
  · obtain ⟨n, hn, -⟩ := normalize_settled hread hset
    exact ⟨n, hn⟩
  · obtain ⟨n', hn', hstable, -⟩ := normalize_settled (readable_of_normalize hn) hset
    obtain rfl := Except.ok.inj (hn.symm.trans hn')
    exact ⟨hstable.deep.imp fun _ => IsStable.hasShape,
      normalize_of_inNormalForm hstable.normal (beq_self_of_finite hstable.finite)⟩

end Normal

/-- The normal form of a product with a sum has the shape, once the cap is large enough. -/
theorem normalize_hasShape_product : ∃ (s : Settings ClosedReal) (c : Coeff ClosedNumber),
    c = mul (var "x") (add (var "x") (lit 1)) ∧ c.Settles s ∧
      (c.Readable → ∃ n, c.normalize s = .ok n) ∧
      ∀ n, c.normalize s = .ok n → n.AllNodes (HasShape s.tolerance) ∧ n.normalize s = .ok n := by
  have hread : (mul (var "x") (add (var "x") (lit 1)) : Coeff ClosedNumber).Readable := by
    simp [Readable, AllNodes]
  obtain ⟨_, -, hnormal⟩ := exists_normal (⟨0, 0⟩ : Settings ClosedReal) hread
  obtain ⟨cap, -, hset⟩ := hnormal.exists
  exact ⟨_, _, rfl, hset, normalize_hasShape hset⟩

end SpinBoson.Coeff
