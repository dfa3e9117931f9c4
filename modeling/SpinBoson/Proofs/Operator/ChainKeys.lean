import SpinBoson.Proofs.Operator.Keys
import SpinBoson.Scalar.Complex

/-!
Chains that are nested to the left. They are what the keys without empty words stand for, and have
these keys, so that two of them are equal if their keys are.
-/
namespace SpinBoson.Operator

variable {κ : Type} {a b : Operator κ}

/-- Products of ladder operators that are nested to the left. -/
inductive IsLeftWord : Operator κ → Prop where
  | mode (l : Ladder) : IsLeftWord (mode l)
  | mul {a : Operator κ} : IsLeftWord a → (l : Ladder) → IsLeftWord (mul a (mode l))

/-- Pauli operators, and left-nested words. -/
inductive IsLeftFactor : Operator κ → Prop where
  | pauli (p : Pauli) : IsLeftFactor (pauli p)
  | word {a : Operator κ} : IsLeftWord a → IsLeftFactor a

/-- Tensor chains of such factors, in any order, that are nested to the left. -/
inductive IsLeftChain : Operator κ → Prop where
  | factor {a : Operator κ} : IsLeftFactor a → IsLeftChain a
  | kron {a b : Operator κ} : IsLeftChain a → IsLeftFactor b → IsLeftChain (kron a b)

theorem IsLeftWord.exists_letters (h : a.IsLeftWord) :
    ∃ letters : List Ladder, letters ≠ [] ∧ word letters = a := by
  induction h with
  | mode l => exact ⟨[l], List.cons_ne_nil l [], rfl⟩
  | mul _ l ih =>
    obtain ⟨letters, hne, rfl⟩ := ih
    exact ⟨letters ++ [l], by simp, word_append_singleton hne l⟩

theorem IsLeftFactor.exists_key (h : a.IsLeftFactor) :
    ∃ f : FactorKey, f ≠ .word [] ∧ f.operator = a := by
  cases h with
  | pauli p => exact ⟨.pauli p, nofun, rfl⟩
  | word h =>
    obtain ⟨letters, hne, rfl⟩ := h.exists_letters
    refine ⟨.word letters, fun heq => ?_, rfl⟩
    cases heq
    exact hne rfl

theorem IsLeftChain.exists_key (h : a.IsLeftChain) :
    ∃ key : TermKey, .word [] ∉ key ∧ key.chain? = some a := by
  induction h with
  | factor h =>
    obtain ⟨f, hf, rfl⟩ := h.exists_key
    exact ⟨[f], by simpa using hf.symm, rfl⟩
  | kron _ hb ih =>
    obtain ⟨key, hkey, hchain⟩ := ih
    obtain ⟨f, hf, rfl⟩ := hb.exists_key
    refine ⟨key ++ [f], by simp [hkey, hf.symm], ?_⟩
    rw [TermKey.chain?, List.map_append]
    exact kronChain_append hchain f.operator

/--
Left-nested chains have keys, which are equal exactly if the chains are. A chain is rebuilt from its
key, and a coefficient in front of it leaves the key as it is.
-/
theorem termKey_identifies (ha : a.IsLeftChain) (hb : b.IsLeftChain) :
    ∃ k l : TermKey, a.termKey? = some k ∧ b.termKey? = some l ∧ (k = l ↔ a = b) ∧
      (k.chain? = some a ∧ l.chain? = some b) ∧
      ∀ c, (scale c a).termKey? = some k ∧ (scale c b).termKey? = some l := by
  obtain ⟨k, hk, hchain⟩ := ha.exists_key
  obtain ⟨l, hl, hchain'⟩ := hb.exists_key
  have hkey := termKey_of_chain hk hchain
  have hkey' := termKey_of_chain hl hchain'
  refine ⟨k, l, hkey, hkey', ?_, ⟨hchain, hchain'⟩, fun c => ?_⟩
  · constructor
    · rintro rfl
      exact Option.some.inj (hchain.symm.trans hchain')
    · rintro rfl
      exact Option.some.inj (hkey.symm.trans hkey')
  · exact ⟨key_of_chain hk hchain, key_of_chain hl hchain'⟩

/-- A word of two letters on one mode has another key than the two letters on two modes. -/
theorem termKey_identifies_modes :
    (kron (pauli .z) (mul (mode .creation) (mode .annihilation)) :
      Operator ComplexDouble).IsLeftChain ∧
    (kron (kron (pauli .z) (mode .creation)) (mode .annihilation) :
      Operator ComplexDouble).IsLeftChain ∧
    ∃ k l : TermKey, k ≠ l ∧
      (kron (pauli .z) (mul (mode .creation) (mode .annihilation)) :
        Operator ComplexDouble).termKey? = some k ∧
      (kron (kron (pauli .z) (mode .creation)) (mode .annihilation) :
        Operator ComplexDouble).termKey? = some l := by
  have hone : (kron (pauli .z) (mul (mode .creation) (mode .annihilation)) :
      Operator ComplexDouble).IsLeftChain :=
    .kron (.factor (.pauli .z)) (.word (.mul (.mode .creation) .annihilation))
  have htwo : (kron (kron (pauli .z) (mode .creation)) (mode .annihilation) :
      Operator ComplexDouble).IsLeftChain :=
    .kron (.kron (.factor (.pauli .z)) (.word (.mode .creation))) (.word (.mode .annihilation))
  obtain ⟨k, l, hk, hl, hiff, -⟩ := termKey_identifies hone htwo
  have hne : k ≠ l := fun heq => by cases hiff.mp heq
  exact ⟨hone, htwo, k, l, hne, hk, hl⟩

end SpinBoson.Operator
