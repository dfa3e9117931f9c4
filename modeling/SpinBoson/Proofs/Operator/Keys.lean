import SpinBoson.Proofs.Operator.Words

/-! Keys in normal form, and the chains that they stand for. -/
namespace SpinBoson

variable {κ : Type}

/-- The operator that one place of a key stands for. -/
def FactorKey.operator : FactorKey → Operator κ
  | pauli p => .pauli p
  | word letters => Operator.word letters

/-- The left-nested chain that a key stands for. -/
def TermKey.chain? (key : TermKey) : Option (Operator κ) :=
  Operator.kronChain? (key.map FactorKey.operator)

/-- Pauli operators for the qubits of a signature, and then normal words for its modes. -/
def TermKey.IsNormal (s : Signature) (key : TermKey) : Prop :=
  ∃ (ps : List Pauli) (words : List (List Ladder)),
    key = ps.map .pauli ++ words.map .word ∧ ps.length = s.count .qubit ∧
      words.length = s.count .mode ∧ ∀ letters ∈ words, Ladder.IsNormalWord letters

namespace TermKey

theorem IsNormal.word_nil_notMem {s : Signature} {key : TermKey} (h : key.IsNormal s) :
    .word [] ∉ key := by
  obtain ⟨ps, words, rfl, -, -, hwords⟩ := h
  intro hmem
  rcases List.mem_append.mp hmem with hmem | hmem
  · obtain ⟨_, -, heq⟩ := List.mem_map.mp hmem
    cases heq
  · obtain ⟨letters, hletters, heq⟩ := List.mem_map.mp hmem
    cases heq
    rcases hwords [] hletters with heq | ⟨hne, -⟩
    · cases heq
    · exact hne rfl

theorem lt_iff {a b : TermKey} : a.lt b = true ↔ a.map FactorKey.code < b.map FactorKey.code := by
  simp [lt]

theorem le_iff {a b : TermKey} : a.le b = true ↔ a.map FactorKey.code ≤ b.map FactorKey.code := by
  simp [le, lt, not_lt]

theorem lt_of_le_ne {a b : TermKey} (h : a.le b = true) (hne : a ≠ b) : a.lt b = true := by
  refine lt_iff.mpr (lt_of_le_of_ne (le_iff.mp h) fun heq => hne ?_)
  exact (List.map_inj_right fun _ _ => FactorKey.code_injective).mp heq

theorem transitive_le {a b c : TermKey} (h : a.le b = true) (h' : b.le c = true) : a.le c = true :=
  le_iff.mpr (le_trans (le_iff.mp h) (le_iff.mp h'))

theorem total_le (a b : TermKey) : (a.le b || b.le a) = true := by
  rw [Bool.or_eq_true, le_iff, le_iff]
  exact le_total _ _

theorem not_le_of_lt {a b : TermKey} (h : a.lt b = true) : b.le a = false := by
  simp [le, h]

end TermKey

namespace Operator

theorem IsNormalWord.exists_letters {ws : List (Operator κ)} (h : ∀ w ∈ ws, w.IsNormalWord) :
    ∃ words : List (List Ladder), ws = words.map word ∧ ∀ letters ∈ words,
      Ladder.IsNormalWord letters := by
  induction ws with
  | nil => exact ⟨[], rfl, by simp⟩
  | cons w ws ih =>
    rw [List.forall_mem_cons] at h
    obtain ⟨letters, hletters, rfl⟩ := h.1
    obtain ⟨words, rfl, hwords⟩ := ih h.2
    exact ⟨letters :: words, rfl, List.forall_mem_cons.mpr ⟨hletters, hwords⟩⟩

theorem map_operator_key (ps : List Pauli) (words : List (List Ladder)) :
    (ps.map FactorKey.pauli ++ words.map FactorKey.word).map (FactorKey.operator (κ := κ)) =
      ps.map pauli ++ words.map word := by
  rw [List.map_append, List.map_map, List.map_map]
  rfl

/-- An arranged chain of normal words is what a key in normal form stands for. -/
theorem isArranged_iff_key {s : Signature} {a : Operator κ} :
    a.IsArranged IsNormalWord s ↔ ∃ key, TermKey.IsNormal s key ∧ key.chain? = some a := by
  constructor
  · rintro ⟨ps, ws, hps, hws, hall, hchain⟩
    obtain ⟨words, rfl, hwords⟩ := IsNormalWord.exists_letters hall
    rw [List.length_map] at hws
    refine ⟨_, ⟨ps, words, rfl, hps, hws, hwords⟩, ?_⟩
    rw [TermKey.chain?, map_operator_key]
    exact hchain
  · rintro ⟨_, ⟨ps, words, rfl, hps, hws, hwords⟩, hchain⟩
    rw [TermKey.chain?, map_operator_key] at hchain
    refine ⟨ps, words.map word, hps, by rw [List.length_map, hws], fun w hw => ?_, hchain⟩
    obtain ⟨letters, hl, rfl⟩ := List.mem_map.mp hw
    exact ⟨letters, hwords letters hl, rfl⟩

theorem factorKey_of_letters {a : Operator κ} {letters : List Ladder}
    (h : a.mulFactors = letters.map mode) : a.factorKey? = some (.word letters) := by
  have hletters : a.mulFactors.mapM ladder? = some letters := by
    rw [h, mapM_eq_some, List.forall₂_map_left_iff, List.forall₂_same]
    exact fun _ _ => rfl
  have hword : a.IsWord := isWord_of_letters fun x hx => by
    obtain ⟨l, -, hl⟩ := List.mem_map.mp (h ▸ hx)
    exact ⟨l, hl.symm⟩
  unfold factorKey?
  split
  · cases hword
  · rw [hletters]
    rfl

theorem eq_pauli_of_key {a : Operator κ} {p : Pauli} (h : a.factorKey? = some (.pauli p)) :
    a = pauli p := by
  unfold factorKey? at h
  split at h
  · cases h
    rfl
  · obtain ⟨_, _, h⟩ := Option.map_eq_some_iff.mp h
    cases h

theorem mulFactors_of_key {a : Operator κ} {letters : List Ladder}
    (h : a.factorKey? = some (.word letters)) : a.mulFactors = letters.map mode := by
  unfold factorKey? at h
  split at h
  · cases h
  · obtain ⟨_, hletters, h⟩ := Option.map_eq_some_iff.mp h
    cases h
    rw [← List.forall₂_eq_eq_eq, List.forall₂_map_right_iff]
    exact (mapM_eq_some.mp hletters).imp fun x l hx => by cases x <;> simp_all [ladder?]

theorem factorKey_word {letters : List Ladder} (h : letters ≠ []) :
    (word letters : Operator κ).factorKey? = some (.word letters) :=
  factorKey_of_letters (mulFactors_word h)

theorem isFactor_of_key {a : Operator κ} {f : FactorKey} (h : a.factorKey? = some f) :
    a.IsFactor := by
  unfold factorKey? at h
  split at h
  · exact .inl ⟨_, rfl⟩
  · obtain ⟨letters, hletters, -⟩ := Option.map_eq_some_iff.mp h
    refine .inr (isWord_of_letters fun x hx => ?_)
    obtain ⟨l, -, hl⟩ := exists_of_forall₂ (mapM_eq_some.mp hletters).flip hx
    exact ⟨l, by cases x <;> simp_all [ladder?]⟩

/-- An operator with a key is a tensor chain. -/
theorem isChain_of_key {a : Operator κ} {key : TermKey}
    (h : a.kronFactors.mapM factorKey? = some key) : a.IsChain := by
  refine of_operands .kron (fun _ _ => .kron) fun x hx => ?_
  obtain ⟨f, -, hf⟩ := exists_of_forall₂ (mapM_eq_some.mp h).flip hx
  exact (isFactor_of_key hf).isChain

/-- The chain that a key stands for has this key, if all words of the key have letters. -/
theorem key_of_chain {key : TermKey} (h : .word [] ∉ key) {a : Operator κ}
    (ha : key.chain? = some a) : a.kronFactors.mapM factorKey? = some key := by
  have hfactors : ∀ x ∈ key.map (FactorKey.operator (κ := κ)), x.kronFactors = [x] := by
    intro x hx
    obtain ⟨f, -, rfl⟩ := List.mem_map.mp hx
    cases f with
    | pauli => rfl
    | word letters => exact (isWord_word letters).kronFactors
  rw [kronFactors, operands_of_leftNested hfactors ha, mapM_eq_some, List.forall₂_map_left_iff,
    List.forall₂_same]
  intro f hf
  cases f with
  | pauli => rfl
  | word letters =>
    refine factorKey_word ?_
    rintro rfl
    exact h hf

theorem unscaled_of_plain {a : Operator κ} (h : a.IsPlain) : a.unscaled = a := by
  cases a with
  | scale => cases h.2
  | spin | mode | bin => rfl

theorem termKey_of_chain {key : TermKey} (h : .word [] ∉ key) {a : Operator κ}
    (ha : key.chain? = some a) : a.termKey? = some key := by
  have hkey := key_of_chain h ha
  rwa [termKey?, unscaled_of_plain (isChain_of_key hkey).isProduct.plain]

end Operator

end SpinBoson
