import SpinBoson.Circuit.Dimension
import SpinBoson.Proofs.Canonical.Recognition

/-!
Dimensions of circuits with Hamiltonians of the canonical shape: they are those of the first gate,
and the check accepts them exactly when all gates have them.
-/
namespace SpinBoson

variable {κ : Type}

theorem forM_of_ok {ε α : Type} {f : α → Except ε Unit} {as : List α}
    (h : ∀ a ∈ as, f a = .ok ()) : as.forM f = .ok () := by
  induction as with
  | nil => rfl
  | cons a as ih =>
    rw [List.forall_mem_cons] at h
    simp only [List.forM, h.1, ok_bind, ih h.2]

/-- Checks of a list one after the other fail at the first value that is refused. -/
theorem forM_of_error {ε α : Type} {f : α → Except ε Unit} {before after : List α} {a : α} {e : ε}
    (h : ∀ b ∈ before, f b = .ok ()) (ha : f a = .error e) :
    (before ++ a :: after).forM f = .error e := by
  induction before with
  | nil =>
    simp only [List.nil_append, List.forM, ha]
    rfl
  | cons b before ih =>
    rw [List.forall_mem_cons] at h
    simp only [List.cons_append, List.forM, h.1, ok_bind, ih h.2]

namespace Operator

/-- Whether an operator acts on so many qubits and modes. -/
def HasDims (d : Dims) (a : Operator κ) : Prop :=
  Signature.dims <$> a.signature = .ok d

theorem HasDims.unique {d d' : Dims} {a : Operator κ} (h : a.HasDims d) (h' : a.HasDims d') :
    d = d' :=
  Except.ok.inj (h.symm.trans h')

/-- Operators with dimensions that all their terms have. -/
structure IsUniform (d : Dims) (a : Operator κ) : Prop where
  hasDims : a.HasDims d
  termDims : ∃ n, a.termDims = List.replicate (n + 1) (.ok d)

theorem HasCanonicalShape.exists_uniform [OrderKey κ] {a : Operator κ} (h : a.HasCanonicalShape) :
    ∃ d, a.IsUniform d := by
  obtain ⟨⟨s, hinc⟩, -⟩ := hasCanonicalShape_iff.mp h
  have hsignature := Canonical.signature_of_increasing hinc
  obtain ⟨ts, hsum, -, hts⟩ := hinc
  obtain ⟨t, rest, rfl⟩ : ∃ t rest, ts = t :: rest := by
    cases ts with
    | nil => cases hsum
    | cons t rest => exact ⟨t, rest, rfl⟩
  refine ⟨(qubitsThenModes s).dims, congrArg (Signature.dims <$> ·) hsignature, rest.length, ?_⟩
  rw [termDims, terms_of_sum hsum, List.map_map, List.eq_replicate_iff]
  refine ⟨by rw [List.length_map, List.length_cons], List.forall_mem_map.mpr fun u hu => ?_⟩
  have hchain := (hts u hu).arranged.signature fun _ hw => hw.isWord.signature
  exact congrArg (Signature.dims <$> ·) hchain

/-- The check of the terms of an operator looks at the first of them alone if all are alike. -/
theorem checkDims_of_uniform {d : Dims} {a : Operator κ} (h : a.IsUniform d) (expected : Dims)
    (mismatch : Dims → Error) :
    a.checkDims expected mismatch = if d = expected then .ok () else .error (mismatch d) := by
  obtain ⟨n, hn⟩ := h.termDims
  rw [checkDims, hn]
  split
  · rename_i heq
    refine forM_of_ok fun x hx => ?_
    rw [List.eq_of_mem_replicate hx, ok_bind, if_pos heq]
    rfl
  · rename_i hne
    refine @forM_of_error _ _ _ [] _ _ _ (fun _ hb => absurd hb List.not_mem_nil) ?_
    rw [ok_bind, if_neg hne]
    rfl

/-! Walks that leave operators alone -/

section Pure

variable {m : Type → Type} [Monad m] [LawfulMonad m] {r : Rule κ m}

theorem up_of_pure (hc : r.coeff = pure) (hr : r.operator = pure) (a : Operator κ) :
    a.up r = pure a := by
  induction a <;> simp_all [up, Coeff.up_of_coeff_pure]

theorem down_of_refused (hr : r.operator = pure) (hd : ∀ a, r.descends a = false) (n : Nat)
    (a : Operator κ) : a.down r .first n = pure a := by
  cases n <;> simp [down, hr, hd]

end Pure

end Operator

namespace Circuit

/-! Assigning dimensions -/

/-- The dimensions of the first term of the first of some gates. -/
def leadingDims? (gates : List (Gate κ)) : Option Dims :=
  gates.head?.bind fun g => g.hamiltonian.termDims.head?.bind Except.toOption

theorem leadingDims_of_uniform {g : Gate κ} {d : Dims} (h : g.hamiltonian.IsUniform d)
    (gates : List (Gate κ)) : leadingDims? (g :: gates) = some d := by
  obtain ⟨n, hn⟩ := h.termDims
  rw [leadingDims?, List.head?_cons, Option.bind_some, hn]
  rfl

/-- Whether the Hamiltonians of some gates each have dimensions that all their terms have. -/
def AllUniform (gates : List (Gate κ)) : Prop :=
  ∀ g ∈ gates, ∃ d, g.hamiltonian.IsUniform d

theorem run_assignGate {g : Gate κ} {d : Dims} (h : g.hamiltonian.IsUniform d)
    (noted : Option Dims) :
    (assignDimsRule.gate g).run noted = (.ok g, noted.or (some d)) := by
  obtain ⟨n, hn⟩ := h.termDims
  cases noted <;>
  · simp only [assignDimsRule, hn, List.replicate_succ]
    rfl

/-- A walk over statements from the leaves up notes the dimensions of the first gate. -/
theorem run_assignStatements {statements : List (Statement κ)}
    (h : AllUniform (statements.filterMap Statement.gate?)) (noted : Option Dims) :
    (statements.mapM (Walkable.up (assignDimsRule (κ := κ)))).run noted =
      (.ok statements, noted.or (leadingDims? (statements.filterMap Statement.gate?))) := by
  induction statements generalizing noted with
  | nil => cases noted <;> rfl
  | cons s rest ih =>
    rw [List.mapM_cons]
    cases s with
    | prepare | measure =>
      refine (Noting.run_bind_ok rfl).trans ?_
      rw [Noting.run_bind_ok (ih h noted)]
      rfl
    | evolve gate duration =>
      have hgates := List.forall_mem_cons.mp (h : AllUniform (gate :: _))
      obtain ⟨d, hd⟩ := hgates.1
      have hnode : (Walkable.up (assignDimsRule (κ := κ)) (Statement.evolve gate duration)).run noted =
          (.ok (.evolve gate duration), noted.or (some d)) := by
        have hgate : Walkable.up (assignDimsRule (κ := κ)) (Statement.evolve gate duration) = (do
            let g ← assignDimsRule.gate gate
            return Statement.evolve g duration) := by
          simp only [Walkable.up, Statement.mapGate, Gate.mapHamiltonian,
            Operator.up_of_pure (r := assignDimsRule (κ := κ)) rfl rfl, pure_bind, bind_assoc]
          rfl
        rw [hgate, Noting.run_bind_ok (run_assignGate hd noted)]
        rfl
      rw [Noting.run_bind_ok hnode, Noting.run_bind_ok (ih hgates.2 _)]
      change _ = (_, noted.or (leadingDims? (gate :: _)))
      rw [leadingDims_of_uniform hd]
      cases noted <;> rfl

/-- The dimensions that a circuit is given; one without gates has no subsystems. -/
def leadingDims (c : Circuit κ) : Dims :=
  (leadingDims? c.gates).getD ⟨0, 0⟩

theorem leadingDims_of_hasDims {c : Circuit κ} (h : AllUniform c.gates) {d : Dims}
    (hd : ∀ g ∈ c.gates, g.hamiltonian.HasDims d) (hne : c.gates ≠ []) : c.leadingDims = d := by
  obtain ⟨g, gates, hgates⟩ := List.exists_cons_of_ne_nil hne
  have hmem : g ∈ c.gates := hgates ▸ List.mem_cons_self
  obtain ⟨d', hd'⟩ := h g hmem
  rw [leadingDims, hgates, leadingDims_of_uniform hd', Option.getD_some]
  exact hd'.hasDims.unique (hd g hmem)

theorem run_assign {c : Circuit κ} (h : AllUniform c.gates) :
    ((walk .post (assignDimsRule (κ := κ)) c).run none).1 = .ok (c.withDims c.leadingDims) := by
  have hwalk : walk .post (assignDimsRule (κ := κ)) c = (do
      let statements ← c.statements.mapM (Walkable.up (assignDimsRule (κ := κ)))
      assignDimsRule.circuit { c with statements := statements }) := by
    change c.mapStatements (Walkable.up (assignDimsRule (κ := κ))) >>= assignDimsRule.circuit = _
    simp only [mapStatements, bind_assoc, pure_bind]
    rfl
  rw [hwalk, Noting.run_bind_ok (run_assignStatements h none)]
  rfl

/-! Checking dimensions -/

/-- The mismatches that the check of dimensions reports. -/
def IsMismatch (d : Dims) (e : Error) : Prop :=
  ∃ gate found, e = .inconsistentGate gate found d

theorem judges_checkGate {g : Gate κ} {d d' : Dims} (h : g.hamiltonian.IsUniform d') :
    (dimsCheck.gate g).Judges (· = some d) (IsMismatch d) g (g.hamiltonian.HasDims d) := by
  rintro _ rfl
  have hiff : g.hamiltonian.HasDims d ↔ d' = d := by
    refine ⟨h.hasDims.unique, ?_⟩
    rintro rfl
    exact h.hasDims
  have hcheck := Operator.checkDims_of_uniform h d (.inconsistentGate g.name · d)
  rw [hiff]
  by_cases heq : d' = d
  · rw [if_pos heq] at hcheck
    refine .inl ⟨heq, some d, rfl, (Noting.run_bind_ok rfl).trans ?_⟩
    simp only [hcheck]
    rfl
  · rw [if_neg heq] at hcheck
    refine .inr ⟨heq, .inconsistentGate g.name d' d, some d, ⟨_, _, rfl⟩,
      (Noting.run_bind_ok rfl).trans ?_⟩
    simp only [hcheck]
    rfl

/-- Below a circuit with dimensions, a walk from the root down checks each gate. -/
theorem judges_checkStatement {n : Nat} {s : Statement κ} {d : Dims}
    (h : ∀ g ∈ s.gate?, ∃ d, g.hamiltonian.IsUniform d) :
    (Walkable.down (dimsCheck (κ := κ)) .first (n + 2) s).Judges (· = some d) (IsMismatch d) s
      (∀ g ∈ s.gate?, g.hamiltonian.HasDims d) := by
  cases s with
  | prepare | measure =>
    exact (Noting.judges_pure _ _ _).congr (by simp [Statement.gate?])
  | evolve gate duration =>
    obtain ⟨d', hd'⟩ := h gate rfl
    have hwalk : Walkable.down (dimsCheck (κ := κ)) .first (n + 2) (.evolve gate duration) = (do
        let g ← dimsCheck.gate gate
        return Statement.evolve g duration) := by
      have hstatement : (dimsCheck (κ := κ)).statement = pure := rfl
      simp only [Walkable.down, hstatement, Statement.mapGate, Gate.mapHamiltonian,
        Operator.down_of_refused (r := dimsCheck (κ := κ)) rfl (fun _ => rfl), pure_bind,
        bind_assoc]
    rw [hwalk]
    refine ((judges_checkGate hd').bind (f := fun g => pure (Statement.evolve g duration))
      (Noting.judges_pure _ _ _)).congr ?_
    simp [Statement.gate?]

theorem run_check {c : Circuit κ} (h : AllUniform c.gates) {d : Dims} (hd : c.dims? = some d) :
    (∀ g ∈ c.gates, g.hamiltonian.HasDims d) ∧
        ((walk .pre (dimsCheck (κ := κ)) c).run none).1 = .ok c ∨
      (¬ ∀ g ∈ c.gates, g.hamiltonian.HasDims d) ∧
        ∃ e, IsMismatch d e ∧ ((walk .pre (dimsCheck (κ := κ)) c).run none).1 = .error e := by
  obtain ⟨n, hn⟩ : ∃ n, Walkable.height κ c + growth = n + 4 :=
    ⟨_, (Nat.sub_add_cancel (Nat.le_trans (by decide) (Nat.le_add_left growth _))).symm⟩
  have hstatements : (c.statements.mapM (Walkable.down (dimsCheck (κ := κ)) .first (n + 2))).Judges
      (· = some d) (IsMismatch d) c.statements (∀ g ∈ c.gates, g.hamiltonian.HasDims d) := by
    refine (Noting.judges_mapM fun s hs => judges_checkStatement fun g hg =>
      h g (List.mem_filterMap.mpr ⟨s, hs, hg⟩)).congr ⟨fun hall g hg => ?_, fun hall s hs g hg => ?_⟩
    · obtain ⟨s, hs, hg⟩ := List.mem_filterMap.mp hg
      exact hall s hs g hg
    · exact hall g (List.mem_filterMap.mpr ⟨s, hs, hg⟩)
  have hcircuit : (dimsCheck.circuit c).run none = (.ok c, some d) := by
    rw [← hd]
    rfl
  have hwalk : walk .pre (dimsCheck (κ := κ)) c = (do
      let c ← dimsCheck.circuit c
      let statements ← c.statements.mapM (Walkable.down (dimsCheck (κ := κ)) .first (n + 2))
      return { c with statements := statements }) := by
    rw [walk_pre, hn]
    rfl
  rw [hwalk, Noting.run_bind_ok hcircuit]
  exact ((hstatements.bind (f := fun statements => pure { c with statements := statements })
    (Noting.judges_pure _ _ _)).congr (and_iff_left trivial)).run_cases rfl

/-- Circuits with uniform gates are given the dimensions of the first, unless another gate differs. -/
theorem assignDims_cases [BEq κ] {c : Circuit κ} (h : AllUniform c.gates) :
    (∀ g ∈ c.gates, g.hamiltonian.HasDims c.leadingDims) ∧
        c.assignDims = .ok (c.withDims c.leadingDims) ∨
      (¬ ∀ g ∈ c.gates, g.hamiltonian.HasDims c.leadingDims) ∧
        ∃ e, IsMismatch c.leadingDims e ∧ c.assignDims = .error e := by
  have hassign : (Pass.ofNotingRule none .post (assignDimsRule (κ := κ)) : Pass (Circuit κ)).run c =
      .ok (c.withDims c.leadingDims) := by
    rw [Pass.ofNotingRule, Pass.run]
    exact run_assign h
  rw [assignDims, dimensionPass, Pass.run, Pass.runAll_cons hassign, Pass.runAll, Pass.ofNotingRule,
    Pass.asCheck, Pass.run]
  have hnil (x : Except Error (Circuit κ)) : (x >>= fun c => Pass.runAll [] c) = x := bind_pure x
  rw [hnil]
  exact run_check (c := c.withDims c.leadingDims) h rfl

end Circuit

end SpinBoson
