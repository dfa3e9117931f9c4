import SpinBoson.Proofs.Canonical.Rest
import SpinBoson.Proofs.ComplexNumbers
import SpinBoson.Proofs.Operator.Denotation
import SpinBoson.Proofs.Operator.PlaceProducts

/-!
Products of tensor chains, multiplied out by repetition. What is left is the chain of the products
at each place, with the product of all phases in front of it.
-/
namespace SpinBoson

open Finset

/-- The places of the qubits in a signature. -/
abbrev Signature.Qubit (s : Signature) : Type :=
  {i : Fin s.length // s[i] = .qubit}

/-- The tensor product of a matrix for each qubit, with the basis states of all qubits as indices. -/
def tensor {ι : Type} [Fintype ι] (M : ι → Matrix (Fin 2) (Fin 2) ℂ) :
    Matrix (ι → Fin 2) (ι → Fin 2) ℂ :=
  .of fun f g => ∏ i, M i (f i) (g i)

theorem prod_turn {ι : Type} (t : Finset ι) (r : ι → ZMod 4) :
    ∏ i ∈ t, (turn (r i) : ℂ) = turn (∑ i ∈ t, r i) := by
  classical
  induction t using Finset.induction with
  | empty => rfl
  | insert i t hi ih => rw [prod_insert hi, sum_insert hi, ih, turn_mul]

/-- The product of two Pauli matrices over the complex numbers. -/
theorem matrix_mul_complex (p q : Pauli) : (p.matrix * q.matrix : Matrix (Fin 2) (Fin 2) ℂ) =
    (turn (p.mul q).1.turns : ℂ) • (p.mul q).2.matrix := by
  rw [← Phase.value_eq_turn]
  exact Pauli.matrix_mul p q

/-- Phases at the places come together in front of a tensor product. -/
theorem tensor_turn {ι : Type} [Fintype ι] (r : ι → ZMod 4) (M : ι → Matrix (Fin 2) (Fin 2) ℂ) :
    tensor (fun i => (turn (r i) : ℂ) • M i) = (turn (∑ i, r i) : ℂ) • tensor M := by
  ext f g
  simp only [tensor, Matrix.of_apply, Matrix.smul_apply, smul_eq_mul, prod_mul_distrib, prod_turn]

namespace Operator

open Canonical Pass

variable {κ : Type}

/-- The matrix of the Pauli operator at a place of a chain. -/
noncomputable def matrixAt (i : Nat) (a : Operator κ) : Matrix (Fin 2) (Fin 2) ℂ :=
  match a.kronFactors[i]? with
  | some (pauli p) => p.matrix
  | _ => 1

/--
Whether a chain is the product of others, place by place, with so many quarter turns in front of it.
There is a Pauli operator at the place of a qubit, and at that of a mode the product of what the
others have there.
-/
structure IsPlaceProduct (s : Signature) (leaves : List (Operator κ)) (q : ZMod 4)
    (chain : Operator κ) : Prop where
  length : chain.kronFactors.length = s.length
  qubit : ∀ i : Nat, s[i]? = some Subsystem.qubit → ∃ p, chain.kronFactors[i]? = some (pauli p)
  mode : ∀ i : Nat, s[i]? = some Subsystem.mode → ∃ w, chain.kronFactors[i]? = some w ∧
    w.mulFactors.map some = leaves.map (·.kronFactors[i]?)
  matrix : (turn q : ℂ) • tensor (fun i : s.Qubit => chain.matrixAt i) =
    tensor fun i : s.Qubit => (leaves.map (matrixAt i)).prod

/-! The products at the places -/

/-- Whether a factor of a key is the product of what some chains have at a place, up to a phase. -/
def IsProductAt (i : Nat) (leaves : List (Operator κ)) (r : ZMod 4) : Option FactorKey → Prop
  | some (.pauli p) => (leaves.map (matrixAt i)).prod = (turn r : ℂ) • p.matrix
  | some (.word letters) =>
    r = 0 ∧ leaves.map (·.kronFactors[i]?) = letters.map fun l => some (mode l)
  | none => r = 0

/-- The key of a Pauli operator or a letter. -/
def elementKey : Operator κ → FactorKey
  | pauli p => .pauli p
  | mode l => .word [l]
  | _ => .word []

/-- A chain of Pauli operators and letters. -/
def IsElementary (a : Operator κ) : Prop :=
  ∀ x ∈ a.kronFactors, (∃ p, x = pauli p) ∨ ∃ l, x = mode l

theorem isProductAt_elementary {a : Operator κ} (h : a.IsElementary) (i : Nat) :
    IsProductAt i [a] 0 (a.kronFactors.map elementKey)[i]? := by
  rw [List.getElem?_map]
  cases hx : a.kronFactors[i]? with
  | none => rfl
  | some x =>
    rcases h x (List.mem_of_getElem? hx) with ⟨p, rfl⟩ | ⟨l, rfl⟩
    · simp [IsProductAt, elementKey, matrixAt, hx, turn]
    · simp [IsProductAt, elementKey, hx]

theorem isProductAt_append {i : Nat} {xs ys : List (Operator κ)} {r t : ZMod 4} {k l : TermKey}
    (hk : IsProductAt i xs r k[i]?) (hl : IsProductAt i ys t l[i]?)
    (hsig : k.signature = l.signature) :
    IsProductAt i (xs ++ ys) (r + t + ((List.zipWith FactorKey.turns k l)[i]?).getD 0)
      (k.mul l)[i]? := by
  have hsame : k[i]?.map FactorKey.subsystem = l[i]?.map FactorKey.subsystem := by
    rw [← List.getElem?_map, ← List.getElem?_map]
    exact congrArg (·[i]?) hsig
  rw [TermKey.mul, List.getElem?_zipWith, List.getElem?_zipWith]
  rcases hf : k[i]? with _ | f <;> rcases hg : l[i]? with _ | g <;> rw [hf] at hk hsame <;>
    rw [hg] at hl hsame
  · exact congrArg (· + 0) (congrArg₂ (· + ·) hk hl)
  · cases hsame
  · cases hsame
  · cases f with
    | pauli p =>
      cases g with
      | pauli p' =>
        have hk : (xs.map (matrixAt i)).prod = (turn r : ℂ) • p.matrix := hk
        have hl : (ys.map (matrixAt i)).prod = (turn t : ℂ) • p'.matrix := hl
        calc
          ((xs ++ ys).map (matrixAt i)).prod
              = ((turn r : ℂ) • p.matrix) * ((turn t : ℂ) • p'.matrix) := by
            rw [List.map_append, List.prod_append, hk, hl]
          _ = (turn r * turn t * turn (p.mul p').1.turns : ℂ) • (p.mul p').2.matrix := by
            rw [smul_mul_smul_comm, matrix_mul_complex, smul_smul]
          _ = (turn (r + t + (p.mul p').1.turns) : ℂ) • (p.mul p').2.matrix := by
            rw [turn_mul, turn_mul]
      | word r => cases hsame
    | word letters =>
      cases g with
      | pauli p' => cases hsame
      | word letters' =>
        obtain ⟨rfl, hk⟩ := hk
        obtain ⟨rfl, hl⟩ := hl
        refine ⟨rfl, ?_⟩
        rw [List.map_append, List.map_append, hk, hl]

section

variable {ρ : Type} [RealScalar ρ] [Scalar κ ρ] {a : Operator κ} {s : Signature}

theorem multipliesTo_elementary (h : a.IsElementary) :
    MultipliesTo a 0 (a.kronFactors.map elementKey) := by
  refine of_operands .kron
    (P := fun x => MultipliesTo x 0 (x.kronFactors.map elementKey)) (fun x y hx hy => ?_)
    fun x hx => ?_
  · rw [kronFactors_kron, List.map_append]
    exact .beside hx hy
  · rcases h x hx with ⟨p, rfl⟩ | ⟨l, rfl⟩
    · exact .qubit p
    · exact .letter l

theorem turns_eq_sum {k l : TermKey} (hk : k.length = s.length) (hl : l.length = s.length) :
    k.turns l = ∑ i ∈ range s.length, ((List.zipWith FactorKey.turns k l)[i]?).getD 0 := by
  have hlen : (List.zipWith FactorKey.turns k l).length = s.length := by
    rw [List.length_zipWith, hk, hl, min_self]
  rw [TermKey.turns, ← Fin.sum_univ_getElem, ← hlen, sum_range]
  refine sum_congr rfl fun i _ => ?_
  rw [List.getElem?_eq_getElem i.2, Option.getD_some]

/-- A product of elementary chains with one signature multiplies out place by place. -/
theorem exists_multipliesTo
    (h : ∀ x ∈ a.mulFactors, x.signature = .ok s ∧ x.IsElementary) :
    ∃ (r : Nat → ZMod 4) (k : TermKey), k.signature = s ∧
      MultipliesTo a (∑ i ∈ range s.length, r i) k ∧
        ∀ i, IsProductAt i a.mulFactors (r i) k[i]? := by
  have single {x : Operator κ} (hx : x.signature = .ok s ∧ x.IsElementary) :
      ∃ (r : Nat → ZMod 4) (k : TermKey), k.signature = s ∧
        MultipliesTo x (∑ i ∈ range s.length, r i) k ∧ ∀ i, IsProductAt i [x] (r i) k[i]? := by
    have hmul := multipliesTo_elementary hx.2
    refine ⟨fun _ => 0, _, ?_, by simpa using hmul, isProductAt_elementary hx.2⟩
    exact (Except.ok.inj (hx.1.symm.trans hmul.signature)).symm
  induction a using operands_induction .mul with
  | single a ha =>
    rw [mulFactors, ha] at h ⊢
    exact single (h a (List.mem_singleton_self a))
  | bin x y ihx ihy =>
    rw [mulFactors, operands_bin_self, List.forall_mem_append] at h
    obtain ⟨r, k, hk, hx, hxat⟩ := ihx h.1
    obtain ⟨t, l, hl, hy, hyat⟩ := ihy h.2
    have hsig : k.signature = l.signature := hk.trans hl.symm
    have hlen {k : TermKey} (hk : k.signature = s) : k.length = s.length := by
      rw [← hk, TermKey.signature, List.length_map]
    refine ⟨fun i => r i + t i + ((List.zipWith FactorKey.turns k l)[i]?).getD 0, k.mul l,
      (TermKey.signature_mul hsig).trans hk, ?_, fun i => ?_⟩
    · rw [sum_add_distrib, sum_add_distrib, ← turns_eq_sum (hlen hk) (hlen hl)]
      exact .times hx hy hsig
    · rw [mulFactors, operands_bin_self]
      exact isProductAt_append (hxat i) (hyat i) hsig

section Keyed

omit [RealScalar ρ] [Scalar κ ρ]

variable {k : TermKey} {chain : Operator κ}

/-- Where a chain has a factor of its key, it has an operator with this key. -/
theorem exists_of_subsystem (hk : k.signature = s)
    (hkey : chain.kronFactors.mapM factorKey? = some k) {i : Nat} {t : Subsystem}
    (hi : s[i]? = some t) :
    ∃ f x, k[i]? = some f ∧ f.subsystem = t ∧ chain.kronFactors[i]? = some x ∧
      x.factorKey? = some f := by
  rw [← hk, TermKey.signature, List.getElem?_map] at hi
  obtain ⟨f, hf, hsub⟩ := Option.map_eq_some_iff.mp hi
  have hall := mapM_eq_some.mp hkey
  obtain ⟨hlt, rfl⟩ := List.getElem?_eq_some_iff.mp hf
  have hix : i < chain.kronFactors.length := hall.length_eq ▸ hlt
  exact ⟨_, chain.kronFactors[i], hf, hsub, List.getElem?_eq_getElem hix, hall.get hix hlt⟩

theorem exists_pauli_at (hk : k.signature = s)
    (hkey : chain.kronFactors.mapM factorKey? = some k) {i : Nat}
    (hi : s[i]? = some Subsystem.qubit) :
    ∃ p, k[i]? = some (.pauli p) ∧ chain.kronFactors[i]? = some (pauli p) := by
  obtain ⟨f, x, hf, hsub, hx, hxf⟩ := exists_of_subsystem hk hkey hi
  cases f with
  | pauli p => exact ⟨p, hf, eq_pauli_of_key hxf ▸ hx⟩
  | word letters => cases hsub

theorem exists_word_at (hk : k.signature = s)
    (hkey : chain.kronFactors.mapM factorKey? = some k) {i : Nat}
    (hi : s[i]? = some Subsystem.mode) :
    ∃ letters w, k[i]? = some (.word letters) ∧ chain.kronFactors[i]? = some w ∧
      w.mulFactors = letters.map mode := by
  obtain ⟨f, x, hf, hsub, hx, hxf⟩ := exists_of_subsystem hk hkey hi
  cases f with
  | pauli p => cases hsub
  | word letters => exact ⟨letters, x, hf, hx, mulFactors_of_key hxf⟩

variable {leaves : List (Operator κ)} {r : Nat → ZMod 4}

/-- Only products at the places of qubits have phases. -/
theorem sum_eq_sum_qubits (hk : k.signature = s) (hat : ∀ i, IsProductAt i leaves (r i) k[i]?) :
    ∑ i ∈ range s.length, r i = ∑ i : s.Qubit, r i := by
  have hne (i : Fin s.length) (_ : i ∈ univ) (hi : r i ≠ 0) : s[i] = .qubit := by
    have hsub : s[(i : Nat)]? = some s[i] := List.getElem?_eq_getElem i.2
    have hat := hat i
    simp only [← hk, TermKey.signature, List.getElem?_map] at hsub
    obtain ⟨f, hf, hsub⟩ := Option.map_eq_some_iff.mp hsub
    rw [hf] at hat
    cases f with
    | pauli p => simp [← hk, TermKey.signature, ← hsub, FactorKey.subsystem]
    | word letters => exact absurd hat.1 hi
  rw [sum_range, ← sum_filter_of_ne hne,
    sum_subtype (p := fun i : Fin s.length => s[i] = .qubit) _ (by simp)]

/-- A chain with a key is the place product that the key is. -/
theorem isPlaceProduct_of_key (hk : k.signature = s)
    (hkey : chain.kronFactors.mapM factorKey? = some k)
    (hat : ∀ i, IsProductAt i leaves (r i) k[i]?) :
    IsPlaceProduct s leaves (∑ i ∈ range s.length, r i) chain := by
  refine ⟨?_, fun i hi => ?_, fun i hi => ?_, ?_⟩
  · rw [(mapM_eq_some.mp hkey).length_eq, ← hk, TermKey.signature, List.length_map]
  · obtain ⟨p, -, hp⟩ := exists_pauli_at hk hkey hi
    exact ⟨p, hp⟩
  · obtain ⟨letters, w, hw, hchain, hletters⟩ := exists_word_at hk hkey hi
    have hat := hat i
    rw [hw] at hat
    refine ⟨w, hchain, ?_⟩
    rw [hletters, hat.2, List.map_map]
    rfl
  · have hplaces : (fun i : s.Qubit => (leaves.map (matrixAt i)).prod) =
        fun i : s.Qubit => (turn (r i) : ℂ) • chain.matrixAt i := by
      funext place
      obtain ⟨i, hi⟩ := place
      obtain ⟨p, hp, hchain⟩ :=
        exists_pauli_at hk hkey ((List.getElem?_eq_getElem i.2).trans (congrArg some hi))
      have hat := hat i
      rw [hp] at hat
      rw [matrixAt, hchain]
      exact hat
    rw [hplaces, tensor_turn, sum_eq_sum_qubits hk hat]

end Keyed

/-! The repetition -/

variable [ExactPhases κ]

/-- Repeated multiplying out ends with a chain, with at most one literal in front of it. -/
theorem exists_multiplied_rest {q : ZMod 4} {k : TermKey} (h : MultipliesTo a q k) :
    ∃ v chain : Operator κ, (Pass.chain "pauli algebra"
        [.ofRule .post (pauliRule (κ := κ)), .ofRule .post (gatherRule (κ := κ))] :
          Pass (Operator κ)).ComesToRestAt a v ∧
      (v = chain ∧ q = 0 ∨ ∃ z, v = scale (.lit z) chain ∧ (z == turn q) = true) ∧
        chain.kronFactors.mapM factorKey? = some k := by
  have hkeep (x : Operator κ) (hx : MultipliesTo x q k) :
      MultipliesTo ((x.rewrite reducePauli).rewrite gatherCoeffs) q k :=
    rewrite_related keepsProduct_congruence keepsProduct_gatherCoeffs _ q k
      (rewrite_related keepsProduct_congruence keepsProduct_reducePauli x q k hx)
  obtain ⟨b, hrest, hb, hfixed⟩ : ∃ b : Operator κ, (Pass.chain "pauli algebra"
      [.ofRule .post (pauliRule (κ := κ)), .ofRule .post (gatherRule (κ := κ))] :
        Pass (Operator κ)).ComesToRestAt a b ∧ MultipliesTo b q k ∧
          (b.rewrite reducePauli).rewrite gatherCoeffs = b :=
    exists_comesToRestAt_of_measure (tested_roundMeasure reduction)
      (run_round _ _ _ reducePauli gatherCoeffs)
      (round_lower reduction_strict reducePauli_lighter gatherCoeffs_le_reduction) hkeep
      (fun _ hx => hx.beq_self) h
  obtain ⟨hreduced, hgathered⟩ := fixed_of_round reduction_strict reducePauli_lighter
    gatherCoeffs_le_reduction (hfixed.symm ▸ hb.beq_self :
      ((b.rewrite reducePauli).rewrite gatherCoeffs == b) = true)
  have hproduct := sumOf_product hb.distributed.1 (hgathered.imp fun _ => isGathered_iff.mpr)
  by_cases hscaled : b.isScaled = true
  · obtain ⟨c, x, rfl⟩ := isScaled_iff.mp hscaled
    cases hb with
    | turned hz hx =>
      have hchain := isChain_of_fixed hproduct hx.signature hreduced.2
      obtain ⟨rfl, hkey⟩ := hx.chain hchain
      rw [add_zero]
      exact ⟨_, x, hrest, .inr ⟨_, rfl, hz⟩, hkey⟩
  · have hplain : b.IsPlain := ⟨hb.distributed.2, Bool.eq_false_iff.mpr hscaled⟩
    have hchain := isChain_of_fixed ((sumOf_iff_of_plain hplain).mp hproduct) hb.signature hreduced
    obtain ⟨rfl, hkey⟩ := hb.chain hchain
    exact ⟨b, b, hrest, .inl ⟨rfl, rfl⟩, hkey⟩

/--
Repeated multiplying out of a product of tensor chains of Pauli and ladder operators ends with the
chain of the products at each place, behind a power of the imaginary unit unless that is one.
-/
theorem pauliAlgebra_product (h : ∀ x ∈ a.mulFactors, x.signature = .ok s ∧
    ∀ y ∈ x.kronFactors, (∃ p, y = pauli p) ∨ ∃ l, y = mode l) :
    ∃ (v chain : Operator κ) (q : ZMod 4), (Pass.chain "pauli algebra"
        [.ofRule .post (pauliRule (κ := κ)), .ofRule .post (gatherRule (κ := κ))] :
          Pass (Operator κ)).ComesToRestAt a v ∧
      (v = chain ∧ q = 0 ∨ ∃ z, v = scale (.lit z) chain ∧ (z == turn q) = true) ∧
        IsPlaceProduct s a.mulFactors q chain := by
  obtain ⟨r, k, hk, hmul, hat⟩ := exists_multipliesTo h
  obtain ⟨v, chain, hrest, hv, hkey⟩ := exists_multiplied_rest hmul
  exact ⟨v, chain, _, hrest, hv, isPlaceProduct_of_key hk hkey hat⟩

/-- Two chains over a qubit and a mode, in double precision. -/
theorem pauliAlgebra_product_two :
    (∀ x ∈ (mul (kron (pauli .x) (mode .creation)) (kron (pauli .y) (mode .annihilation)) :
        Operator ComplexDouble).mulFactors, x.signature = .ok [.qubit, .mode] ∧
      ∀ y ∈ x.kronFactors, (∃ p, y = pauli p) ∨ ∃ l, y = mode l) ∧
    ∃ (v chain : Operator ComplexDouble) (q : ZMod 4), (Pass.chain "pauli algebra"
        [.ofRule .post (pauliRule (κ := ComplexDouble)),
          .ofRule .post (gatherRule (κ := ComplexDouble))] :
          Pass (Operator ComplexDouble)).ComesToRestAt
            (mul (kron (pauli .x) (mode .creation)) (kron (pauli .y) (mode .annihilation))) v ∧
      (v = chain ∧ q = 0 ∨ ∃ z, v = scale (.lit z) chain ∧ (z == turn q) = true) ∧
        IsPlaceProduct [.qubit, .mode]
          [kron (pauli .x) (mode .creation), kron (pauli .y) (mode .annihilation)] q chain := by
  have h : ∀ x ∈ (mul (kron (pauli .x) (mode .creation)) (kron (pauli .y) (mode .annihilation)) :
      Operator ComplexDouble).mulFactors, x.signature = .ok [.qubit, .mode] ∧
        ∀ y ∈ x.kronFactors, (∃ p, y = pauli p) ∨ ∃ l, y = mode l := by
    simp [mulFactors, kronFactors, operands, operandsBefore, signature, pauli]
  exact ⟨h, pauliAlgebra_product h⟩

end

end Operator

end SpinBoson
