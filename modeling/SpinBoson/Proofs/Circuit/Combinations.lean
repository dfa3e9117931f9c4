import SpinBoson.Proofs.Circuit.Extraction
import SpinBoson.Proofs.ClosedForms
import SpinBoson.Proofs.Coeff.Arithmetic
import SpinBoson.Proofs.Coeff.Closed

/-!
Linear combinations of tensor chains. They are what terms can be extracted from, and nothing is lost
by that: there is a term for each chain, with the product of the coefficients around it.
-/
namespace SpinBoson

variable {κ ρ : Type}

namespace Operator

/-- Sums and multiples of tensor chains, in any nesting. -/
inductive IsCombination : Operator κ → Prop where
  | chain {a : Operator κ} : IsChain a → IsCombination a
  | add {a b : Operator κ} : IsCombination a → IsCombination b → IsCombination (add a b)
  | scale (c : Coeff κ) {a : Operator κ} : IsCombination a → IsCombination (scale c a)

/--
The first node that is no combination although its operands are; operands come before their
operation, and those on the left before those on the right.
-/
inductive FirstMisfit : Operator κ → Operator κ → Prop where
  | elementary {a : Operator κ} : a.isElementary = true → ¬ IsCombination a → FirstMisfit a a
  | bin {op : Op} {a b : Operator κ} : IsCombination a → IsCombination b →
      ¬ IsCombination (bin op a b) → FirstMisfit (bin op a b) (bin op a b)
  | left {op : Op} {a x : Operator κ} (b : Operator κ) : FirstMisfit a x →
      FirstMisfit (bin op a b) x
  | right {op : Op} {a b x : Operator κ} : IsCombination a → FirstMisfit b x →
      FirstMisfit (bin op a b) x
  | scale (c : Coeff κ) {a x : Operator κ} : FirstMisfit a x → FirstMisfit (scale c a) x

/-- The chains of a combination in order, each after the coefficients around it, the outer ones
first. -/
def scaledChains : Operator κ → List (List (Coeff κ) × Operator κ)
  | add a b => a.scaledChains ++ b.scaledChains
  | scale c a => a.scaledChains.map fun (cs, x) => (c :: cs, x)
  | a => [([], a)]

theorem IsProduct.scaledChains {a : Operator κ} (h : a.IsProduct) : a.scaledChains = [([], a)] := by
  cases h <;> rfl

theorem exists_firstMisfit {a : Operator κ} (h : ¬ a.IsCombination) : ∃ x, a.FirstMisfit x := by
  induction a with
  | spin | mode => exact ⟨_, .elementary rfl h⟩
  | scale c a ih =>
    obtain ⟨x, hx⟩ := ih fun ha => h (.scale c ha)
    exact ⟨x, .scale c hx⟩
  | bin op a b iha ihb =>
    by_cases ha : a.IsCombination
    · by_cases hb : b.IsCombination
      · exact ⟨_, .bin ha hb h⟩
      · obtain ⟨x, hx⟩ := ihb hb
        exact ⟨x, .right ha hx⟩
    · obtain ⟨x, hx⟩ := iha ha
      exact ⟨x, .left b hx⟩

/-- What has a key is a chain, with or without a coefficient in front of it. -/
theorem exists_termKey_iff {a : Operator κ} :
    (∃ key, a.termKey? = some key) ↔ a.unscaled.IsChain := by
  constructor
  · rintro ⟨key, hkey⟩
    exact isChain_of_key hkey
  · intro h
    obtain ⟨key, hkey⟩ := h.exists_key
    rw [termKey?, unscaled_of_plain h.isProduct.plain] at hkey
    exact ⟨key, hkey⟩

end Operator

variable [RealScalar ρ] [Scalar κ ρ]

namespace Term

/-- The operator that a term stands for. -/
def operator (t : Term κ) : Operator κ :=
  .scale t.coeff t.chain

/--
A term of a chain with coefficients around it: it has the chain and its key, and over exact scalars
its coefficient has the product of their values.
-/
structure IsOf (t : Term κ) (occurrence : List (Coeff κ) × Operator κ) : Prop where
  isChain : occurrence.2.IsChain
  chain : t.chain = occurrence.2
  key : occurrence.2.termKey? = some t.key
  coeff : ∀ [ExactRing κ] (β : Coeff.Bindings κ) (zs : List κ),
    List.Forall₂ (fun c z => c.value β = .ok z) occurrence.1 zs → t.coeff.value β = .ok zs.prod

theorem value_scale [ExactRing κ] {β : Coeff.Bindings κ} {c : Coeff κ} {t : Term κ} {z w : κ}
    (hc : c.value β = .ok z) (ht : t.coeff.value β = .ok w) :
    (t.scale c).coeff.value β = .ok (z * w) := by
  by_cases hone : t.coeff.isLiteral 1 = true
  · rw [Coeff.isLiteral_iff.mp hone] at ht
    cases ht
    rw [scale, if_pos hone, mul_one]
    exact hc
  · rw [scale, if_neg hone]
    exact bind_eq_ok.mpr ⟨z, hc, bind_eq_ok.mpr ⟨w, ht, rfl⟩⟩

/-- A coefficient in front of a term is one more around its chain. -/
theorem IsOf.scale {t : Term κ} {cs : List (Coeff κ)} {x : Operator κ} (h : t.IsOf (cs, x))
    (c : Coeff κ) : (t.scale c).IsOf (c :: cs, x) where
  isChain := h.isChain
  chain := h.chain
  key := h.key
  coeff β zs hzs := by
    cases hzs with
    | cons hc hcs =>
      rw [List.prod_cons]
      exact value_scale hc (h.coeff β _ hcs)

end Term

namespace Operator

/-! Extraction -/

theorem IsCombination.exists_termList {a : Operator κ} (h : a.IsCombination) :
    ∃ ts, a.termList = .ok ts ∧ List.Forall₂ Term.IsOf ts a.scaledChains := by
  induction h with
  | @chain a h =>
    obtain ⟨key, hkey, hlist⟩ := termList_of_chain h
    refine ⟨_, hlist, ?_⟩
    rw [h.isProduct.scaledChains]
    refine .cons ⟨h, rfl, hkey, fun β zs hzs => ?_⟩ .nil
    cases hzs
    rfl
  | @add a b _ _ iha ihb =>
    obtain ⟨ts, ha, hts⟩ := iha
    obtain ⟨us, hb, hus⟩ := ihb
    refine ⟨ts ++ us, ?_, List.rel_append hts hus⟩
    rw [termList_bin, ha, hb, ok_bind, ok_bind]
    simp [termsAt]
  | @scale c a _ ih =>
    obtain ⟨ts, ha, hts⟩ := ih
    refine ⟨ts.map (Term.scale c), ?_, ?_⟩
    · rw [termList_scale, ha, ok_bind]
      simp [termsAt]
    · rw [scaledChains, List.forall₂_map_left_iff, List.forall₂_map_right_iff]
      exact hts.imp fun t _ ht => ht.scale c

/-- Only sums and multiples need no key of their own. -/
theorem termsAt_of_misfit {a : Operator κ} (hplain : a.IsPlain) (h : ¬ a.IsCombination)
    (operands : List (List (Term κ))) :
    a.termsAt operands = .error (.unsupportedNode "CollectTerms" a.text) := by
  have hkey : a.termKey? = none := by
    rw [Option.eq_none_iff_forall_ne_some]
    intro key hkey
    have hchain := exists_termKey_iff.mp ⟨key, hkey⟩
    rw [unscaled_of_plain hplain] at hchain
    exact h (.chain hchain)
  unfold termsAt
  split
  · cases hplain.1
  · cases hplain.2
  · rfl
  · rw [hkey]

/-- Extraction fails at the first misfit. -/
theorem FirstMisfit.termList {a x : Operator κ} (h : a.FirstMisfit x) :
    a.termList = .error (.unsupportedNode "CollectTerms" x.text) := by
  induction h with
  | @elementary a he h =>
    cases a with
    | spin | mode => exact termsAt_of_misfit ⟨rfl, rfl⟩ h []
    | bin | scale => cases he
  | @bin op a b ha hb h =>
    obtain ⟨ts, hts, -⟩ := ha.exists_termList
    obtain ⟨us, hus, -⟩ := hb.exists_termList
    have hplain : (Operator.bin op a b).IsPlain := by
      cases op with
      | add => exact absurd (.add ha hb) h
      | sub | mul | kron => exact ⟨rfl, rfl⟩
    rw [termList_bin, hts, hus, ok_bind, ok_bind]
    exact termsAt_of_misfit hplain h _
  | left b _ ih =>
    rw [termList_bin, ih]
    rfl
  | right ha _ ih =>
    obtain ⟨ts, hts, -⟩ := ha.exists_termList
    rw [termList_bin, hts, ok_bind, ih]
    rfl
  | scale c _ ih =>
    rw [termList_scale, ih]
    rfl

theorem termList_eq_ok_iff {a : Operator κ} : (∃ ts, a.termList = .ok ts) ↔ a.IsCombination := by
  constructor
  · rintro ⟨ts, hts⟩
    by_contra h
    obtain ⟨x, hx⟩ := exists_firstMisfit h
    cases hts.symm.trans hx.termList
  · intro h
    obtain ⟨ts, hts, -⟩ := h.exists_termList
    exact ⟨ts, hts⟩

/-- The terms of an operator of the canonical shape sum up to it. -/
theorem HasCanonicalShape.sum_termList [OrderKey κ] [LawfulTest κ] {a : Operator κ}
    (h : a.HasCanonicalShape) : ∃ ts, a.termList = .ok ts ∧ sum? (ts.map Term.operator) = some a := by
  obtain ⟨⟨s, ts, hsum, -, hts⟩, -⟩ := hasCanonicalShape_iff.mp h
  refine ⟨_, termList_of_terms hts (terms_of_sum hsum), ?_⟩
  have hoperator (t : KeyedTerm κ) : t.extracted.operator = t.operator := by
    rw [t.extracted_eq LawfulTest.one_beq_one]
    rfl
  rw [List.map_map]
  exact (congrArg sum? (List.map_congr_left fun t _ => hoperator t)).trans hsum

/--
Terms can be extracted exactly from the linear combinations of chains, which are what has a key once
a coefficient in front is left aside; the first misfit is reported otherwise. There is one term for
each chain, and those of an operator that the last check accepts sum up to it.
-/
theorem termList_lossless [OrderKey κ] [LawfulTest κ] (a : Operator κ) :
    ((∃ key, a.termKey? = some key) ↔ a.unscaled.IsChain) ∧
      ((∃ ts, a.termList = .ok ts) ↔ a.IsCombination) ∧
      (¬ a.IsCombination → ∃ x, a.FirstMisfit x ∧
        a.termList = .error (.unsupportedNode "CollectTerms" x.text)) ∧
      (∀ ts, a.termList = .ok ts → List.Forall₂ Term.IsOf ts a.scaledChains) ∧
      ∀ b, (Canonical.verification κ : Pass (Operator κ)).run a = .ok b →
        ∃ ts, a.termList = .ok ts ∧ sum? (ts.map Term.operator) = some a := by
  refine ⟨exists_termKey_iff, termList_eq_ok_iff, fun h => ?_, fun ts hts => ?_, fun b hb => ?_⟩
  · obtain ⟨x, hx⟩ := exists_firstMisfit h
    exact ⟨x, hx, hx.termList⟩
  · obtain ⟨us, hus, hall⟩ := (termList_eq_ok_iff.mp ⟨ts, hts⟩).exists_termList
    obtain rfl := Except.ok.inj (hts.symm.trans hus)
    exact hall
  · obtain ⟨rfl, hshapes⟩ := (Canonical.verification_accepts (Nat.zero_le _) a b).mp hb
    exact HasCanonicalShape.sum_termList (hshapes b (List.mem_singleton_self b))

/-- Two coefficients around one chain. -/
def nestedScales : Operator ClosedNumber :=
  .scale (.var "a") (.scale (.var "b") (.pauli .y))

/-- A sum of the canonical shape. -/
def fieldSum : Operator ClosedNumber :=
  .add (.scale (.var "v") (.pauli .x)) (.scale (.var "w") (.pauli .z))

theorem run_verification_fieldSum :
    (Canonical.verification ClosedNumber : Pass (Operator ClosedNumber)).run fieldSum =
      .ok fieldSum := by
  have normal (p : Pauli) (name : String) :
      (⟨[.pauli p], .var name, .pauli p⟩ : KeyedTerm ClosedNumber).IsNormal [.qubit] :=
    ⟨⟨[p], [], rfl, rfl, rfl, by simp⟩, rfl⟩
  refine Canonical.run_verification (s := [.qubit])
    ⟨[⟨[.pauli .x], .var "v", .pauli .x⟩, ⟨[.pauli .z], .var "w", .pauli .z⟩], rfl,
      List.pairwise_pair.mpr (by decide), ?_⟩ ?_
  · simp only [List.forall_mem_cons]
    exact ⟨normal _ _, normal _ _, by simp⟩
  · simp only [fieldSum, coeffs, List.singleton_append, List.forall_mem_cons]
    exact ⟨trivial, trivial, by simp⟩

/-- A difference is refused, two coefficients are multiplied, and a sum is put together again. -/
theorem termList_lossless_nested :
    (sub (.pauli .x) (.pauli .y) : Operator ClosedNumber).termList =
        .error (.unsupportedNode "CollectTerms" "(X - Y)") ∧
      (∃ t, nestedScales.termList = .ok [t] ∧ t.chain = .pauli .y ∧
        t.coeff.value (fun _ => some Scalar.imag) = .ok (-1)) ∧
      ∃ t u, fieldSum.termList = .ok [t, u] ∧ add t.operator u.operator = fieldSum := by
  refine ⟨?_, ?_, ?_⟩
  · obtain ⟨-, -, hmisfit, -⟩ :=
      termList_lossless (sub (.pauli .x) (.pauli .y) : Operator ClosedNumber)
    obtain ⟨x, hx, hlist⟩ := hmisfit fun h => by
      cases h with
      | chain h => cases h with
        | word h => cases h
    cases hx with
    | elementary he => cases he
    | bin => exact hlist
    | left _ hx =>
      cases hx with
      | elementary _ h => exact absurd (.chain (.pauli .x)) h
    | right _ hx =>
      cases hx with
      | elementary _ h => exact absurd (.chain (.pauli .y)) h
  · obtain ⟨-, hok, -, hterms, -⟩ := termList_lossless nestedScales
    obtain ⟨ts, hts⟩ := hok.mpr (.scale _ (.scale _ (.chain (.pauli .y))))
    cases hterms ts hts with
    | cons ht hall =>
      cases hall
      refine ⟨_, hts, ht.chain, ?_⟩
      have hvalue := ht.coeff (fun _ => some Scalar.imag) [Scalar.imag, Scalar.imag]
        (.cons rfl (.cons rfl .nil))
      simpa only [List.prod_cons, List.prod_nil, mul_one, ExactRing.imag_mul_imag] using hvalue
  · obtain ⟨-, -, -, hterms, haccepted⟩ := termList_lossless fieldSum
    obtain ⟨ts, hts, hsum⟩ := haccepted _ run_verification_fieldSum
    cases hterms ts hts with
    | cons _ hall =>
      cases hall with
      | cons _ hall =>
        cases hall
        exact ⟨_, _, hts, Option.some.inj hsum⟩

end Operator

end SpinBoson
