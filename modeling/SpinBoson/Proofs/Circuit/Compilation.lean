import SpinBoson.Proofs.Canonical.Values
import SpinBoson.Proofs.Circuit.Dimensions
import SpinBoson.Proofs.Circuit.Extraction
import SpinBoson.Proofs.ExactScalar

/-!
Compiled circuits. A circuit compiles exactly if it has a canonical form in which all Hamiltonians
act on equally many qubits and modes; these are then its dimensions, and the terms of each
Hamiltonian stand under increasing keys with that many places.
-/
namespace SpinBoson

variable {κ ρ : Type} [RealScalar ρ] [Scalar κ ρ]

/-- Pauli operators for so many qubits, and then words for so many modes. -/
def TermKey.HasDims (d : Dims) (key : TermKey) : Prop :=
  ∃ (ps : List Pauli) (words : List (List Ladder)),
    key = ps.map .pauli ++ words.map .word ∧ ps.length = d.qubits ∧ words.length = d.modes

theorem TermKey.IsNormal.hasDims {s : Signature} {key : TermKey} (h : key.IsNormal s) :
    key.HasDims s.dims := by
  obtain ⟨ps, words, rfl, hps, hwords, -⟩ := h
  exact ⟨ps, words, rfl, hps, hwords⟩

/-- Terms under increasing keys, all with the same dimensions. -/
structure IsTermList (d : Dims) (ts : List (Term κ)) : Prop where
  increasing : (ts.map Term.key).Pairwise fun k l => k.lt l = true
  keys : ∀ t ∈ ts, t.key.HasDims d

namespace Operator

omit [RealScalar ρ] [Scalar κ ρ] in
theorem dims_qubitsThenModes (s : Signature) : (qubitsThenModes s).dims = s.dims := by
  simp [qubitsThenModes, Signature.dims, List.count_filter, List.count_eq_zero]

/-- The terms of an operator of the canonical shape can be extracted. -/
theorem HasCanonicalShape.exists_termList [OrderKey κ] {a : Operator κ}
    (h : a.HasCanonicalShape) {d : Dims} (hd : a.HasDims d) :
    ∃ ts : List (KeyedTerm κ), sum? (ts.map KeyedTerm.operator) = some a ∧ ts ≠ [] ∧
      a.termList = .ok (ts.map KeyedTerm.extracted) ∧
        IsTermList d (ts.map KeyedTerm.extracted) := by
  obtain ⟨⟨s, hinc⟩, -⟩ := hasCanonicalShape_iff.mp h
  have hdims : a.HasDims s.dims := by
    rw [HasDims, Canonical.signature_of_increasing hinc, ← dims_qubitsThenModes s]
    rfl
  obtain rfl := hd.unique hdims
  obtain ⟨ts, hsum, hkeys, hts⟩ := hinc
  refine ⟨ts, hsum, ?_, termList_of_terms hts (terms_of_sum hsum), ?_, ?_⟩
  · rintro rfl
    cases hsum
  · rw [List.map_map]
    exact hkeys
  · exact List.forall_mem_map.mpr fun t ht => (hts t ht).1.hasDims

end Operator

namespace Circuit

open Canonical Container Pass

variable [OrderKey κ]

omit [RealScalar ρ] [Scalar κ ρ] [OrderKey κ] in
theorem levels_le : levels κ (Circuit κ) ≤ growth :=
  (by decide : 4 ≤ growth)

omit [RealScalar ρ] [Scalar κ ρ] in
theorem allUniform_of_shapes {gates : List (Gate κ)}
    (h : ∀ g ∈ gates, g.hamiltonian.HasCanonicalShape) : AllUniform gates :=
  fun g hg => (h g hg).exists_uniform

section Canonical

variable {s : Settings ρ} {c k : Circuit κ}

theorem shapes_of_canonicalize (h : canonicalize κ s c = .ok k) :
    ∀ g ∈ k.gates, g.hamiltonian.HasCanonicalShape := by
  have hshapes := hasCanonicalShape_of_canonicalize levels_le h
  rwa [operators_circuit, List.forall_mem_map] at hshapes

theorem compile_cases (h : canonicalize κ s c = .ok k) :
    (∀ g ∈ k.gates, g.hamiltonian.HasDims k.leadingDims) ∧
        c.compile s = .ok (k.withDims k.leadingDims) ∨
      (¬ ∀ g ∈ k.gates, g.hamiltonian.HasDims k.leadingDims) ∧
        ∃ e, IsMismatch k.leadingDims e ∧ c.compile s = .error e := by
  have huniform := allUniform_of_shapes (shapes_of_canonicalize h)
  have hcompile : c.compile s = k.assignDims := by
    rw [compile, h, ok_bind]
  rw [hcompile]
  exact assignDims_cases huniform

/-- The Hamiltonians of gates with the same dimensions have a list of terms each. -/
theorem exists_evolutionTerms {gates : List (Gate κ)} {d : Dims}
    (hshapes : ∀ g ∈ gates, g.hamiltonian.HasCanonicalShape)
    (hd : ∀ g ∈ gates, g.hamiltonian.HasDims d) :
    ∃ lists, gates.mapM (fun g => g.hamiltonian.termList) = .ok lists ∧
      List.Forall₂ (fun g ts => g.hamiltonian.termList = .ok ts ∧ IsTermList d ts) gates lists := by
  induction gates with
  | nil => exact ⟨[], rfl, .nil⟩
  | cons g gates ih =>
    rw [List.forall_mem_cons] at hshapes hd
    obtain ⟨lists, hlists, hall⟩ := ih hshapes.2 hd.2
    obtain ⟨ts, -, -, hts, hlist⟩ := hshapes.1.exists_termList hd.1
    refine ⟨_ :: lists, ?_, .cons ⟨hts, hlist⟩ hall⟩
    rw [List.mapM_cons, hts, hlists]
    rfl

end Canonical

/--
A circuit that meets what simulation relies on: its dimensions are assigned, and each evolution has
a list of terms with these dimensions.
-/
structure IsReady (c : Circuit κ) (d : Dims) : Prop where
  qubits : c.qubits? = some d.qubits
  modes : c.modes? = some d.modes
  gates : ∀ g ∈ c.gates, g.hamiltonian.HasDims d
  empty : c.gates = [] → d = ⟨0, 0⟩
  terms : ∃ lists, c.evolutionTerms = .ok lists ∧
    List.Forall₂ (fun g ts => g.hamiltonian.termList = .ok ts ∧ IsTermList d ts) c.gates lists

/-- Exactly the circuits with a canonical form whose Hamiltonians act on equally many qubits and modes
compile; the result has the gates of the circuit and is ready. -/
theorem compile_contract (s : Settings ρ) (c : Circuit κ) :
    ((∃ c', c.compile s = .ok c') ↔
      ∃ k d, canonicalize κ s c = .ok k ∧ ∀ g ∈ k.gates, g.hamiltonian.HasDims d) ∧
    ∀ c', c.compile s = .ok c' → ∃ k d, canonicalize κ s c = .ok k ∧ c' = k.withDims d ∧
      c'.gates.map Gate.name = c.gates.map Gate.name ∧ c'.IsReady d := by
  have hcanonical {c'} (h : c.compile s = .ok c') : ∃ k, canonicalize κ s c = .ok k := by
    obtain ⟨k, hk, -⟩ := bind_eq_ok.mp h
    exact ⟨k, hk⟩
  refine ⟨⟨?_, ?_⟩, ?_⟩
  · rintro ⟨c', h⟩
    obtain ⟨k, hk⟩ := hcanonical h
    rcases compile_cases hk with ⟨hd, -⟩ | ⟨-, e, -, he⟩
    · exact ⟨k, k.leadingDims, hk, hd⟩
    · cases he.symm.trans h
  · rintro ⟨k, d, hk, hd⟩
    rcases compile_cases hk with ⟨-, hok⟩ | ⟨hdiffer, -⟩
    · exact ⟨_, hok⟩
    · refine absurd (fun g hg => ?_) hdiffer
      rw [leadingDims_of_hasDims (allUniform_of_shapes (shapes_of_canonicalize hk)) hd
        (List.ne_nil_of_mem hg)]
      exact hd g hg
  · intro c' h
    obtain ⟨k, hk⟩ := hcanonical h
    rcases compile_cases hk with ⟨hd, hok⟩ | ⟨-, e, -, he⟩
    · obtain rfl := Except.ok.inj (hok.symm.trans h)
      have hnames := gates_of_sameOutline ((canonicalize_isOutcome levels_le s c).outline k hk)
      have hterms := exists_evolutionTerms (shapes_of_canonicalize hk) hd
      refine ⟨k, k.leadingDims, hk, rfl, hnames, ?_⟩
      exact {
        qubits := rfl
        modes := rfl
        gates := hd
        empty := fun hnil => by rw [leadingDims, show k.gates = [] from hnil]; rfl
        terms := hterms }
    · cases he.symm.trans h

/-- A circuit with one evolution. -/
def evolving (h : Operator ComplexDouble) : Circuit ComplexDouble :=
  ⟨"evolving", [.prepare, .evolve ⟨"gate", h, []⟩ 1, .measure], none, none⟩

/-- A mode beside a qubit. -/
def modeThenQubit : Operator ComplexDouble :=
  .kron (.mode .creation) (.pauli .x)

def qubitThenMode : Operator ComplexDouble :=
  .scale (.lit 1) (.kron (.pauli .x) (.mode .creation))

/-- The qubit comes to stand in front of the mode, and the coefficient one in front of both. -/
theorem canonicalize_evolving :
    canonicalize ComplexDouble ({ maxIterations := 1 } : Settings Double) (evolving modeThenQubit) =
      .ok (evolving qubitThenMode) := by
  rw [canonicalize, canonicalization, Pass.run]
  refine runAll_once rfl (runAll_step rfl (runAll_step rfl (runAll_step rfl ?_)))
  refine runAll_once rfl (runAll_step rfl (runAll_once rfl (runAll_step rfl ?_)))
  refine runAll_once rfl (runAll_step rfl (runAll_once rfl (runAll_step rfl ?_)))
  refine runAll_once rfl (runAll_step rfl (runAll_step rfl ?_))
  exact runAll_once rfl (runAll_step rfl (runAll_step rfl rfl))

theorem compile_evolving :
    (evolving modeThenQubit).compile ({ maxIterations := 1 } : Settings Double) =
      .ok ((evolving qubitThenMode).withDims ⟨1, 1⟩) := by
  rw [compile, canonicalize_evolving, ok_bind]
  rfl

/-- The mode and the qubit are ready with one place each. -/
theorem compile_contract_evolving : ∃ c', (evolving modeThenQubit).compile
    ({ maxIterations := 1 } : Settings Double) = .ok c' ∧ c'.IsReady ⟨1, 1⟩ := by
  obtain ⟨-, hready⟩ := compile_contract ({ maxIterations := 1 } : Settings Double)
    (evolving modeThenQubit)
  obtain ⟨k, ⟨q, m⟩, -, -, -, h⟩ := hready _ compile_evolving
  cases h.qubits
  cases h.modes
  exact ⟨_, compile_evolving, h⟩

end Circuit

end SpinBoson
