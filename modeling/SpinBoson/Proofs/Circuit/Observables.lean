import Mathlib.Data.String.Basic
import SpinBoson.Proofs.Circuit.Compilation

/-!
Compiled observables. Observables compile for a circuit exactly if they have canonical forms with its
dimensions. Each is then the sum of its terms; otherwise the first of them that does not fit is
reported.
-/
namespace SpinBoson

namespace Named

variable {α : Type}

/-- Whether names increase, as they do in all named values that are built from entries. -/
def Sorted (named : Named α) : Prop :=
  (named.map Prod.fst).Pairwise (· < ·)

theorem sorted_insert {named : Named α} (h : Sorted named) (name : String) (a : α) :
    Sorted (insert name a named) ∧
      ∀ n ∈ (insert name a named).map Prod.fst, n = name ∨ n ∈ named.map Prod.fst := by
  induction named with
  | nil => exact ⟨List.pairwise_singleton _ _, by simp [insert]⟩
  | cons head rest ih =>
    obtain ⟨other, b⟩ := head
    obtain ⟨hother, hrest⟩ := List.pairwise_cons.mp h
    obtain ⟨hsorted, hnames⟩ := ih hrest
    by_cases hlt : name < other
    · simp only [insert, if_pos hlt]
      refine ⟨List.pairwise_cons.mpr ⟨?_, h⟩, by simp⟩
      exact List.forall_mem_cons.mpr ⟨hlt, fun n hn => hlt.trans (hother n hn)⟩
    · by_cases heq : name = other
      · simp only [insert, if_neg hlt, if_pos heq]
        subst heq
        exact ⟨List.pairwise_cons.mpr ⟨hother, hrest⟩, by simp⟩
      · simp only [insert, if_neg hlt, if_neg heq]
        refine ⟨List.pairwise_cons.mpr ⟨fun n hn => ?_, hsorted⟩, ?_⟩
        · rcases hnames n hn with rfl | hn
          · exact lt_of_le_of_ne (not_lt.mp hlt) (Ne.symm heq)
          · exact hother n hn
        · refine List.forall_mem_cons.mpr ⟨.inr List.mem_cons_self, fun n hn => ?_⟩
          exact (hnames n hn).imp_right (List.mem_cons_of_mem _)

theorem sorted_ofList (entries : List (String × α)) : Sorted (ofList entries) := by
  have fold (named : Named α) (h : Sorted named) :
      Sorted (entries.foldl (fun named entry => insert entry.1 entry.2 named) named) := by
    induction entries generalizing named with
    | nil => exact h
    | cons entry rest ih => exact ih _ (sorted_insert h _ _).1
  exact fold [] List.Pairwise.nil

end Named

variable {κ ρ : Type} [RealScalar ρ] [Scalar κ ρ]

namespace Circuit

open Canonical Container Operator Pass

/-! Checking observables -/

omit [RealScalar ρ] [Scalar κ ρ] in
theorem run_observableCheck {name : String} {d d' : Dims} {a : Operator κ} (h : a.IsUniform d') :
    discard (walk .pre (observableCheck name d : Rule κ (Except Error)) a) =
      if d' = d then .ok () else .error (.observableMismatch name d' d) := by
  obtain ⟨n, hn⟩ : ∃ n, Walkable.height κ a + growth = n + 1 :=
    ⟨_, (Nat.sub_add_cancel (Nat.le_trans (by decide) (Nat.le_add_left growth _))).symm⟩
  have hdown : Operator.down (observableCheck name d) .first (n + 1) a =
      (do a.checkDims d (.observableMismatch name · d); return a) :=
    bind_pure _
  rw [walk_pre, hn]
  change discard (Operator.down _ _ _ _) = _
  rw [hdown, checkDims_of_uniform h]
  split <;> rfl

section Check

variable [OrderKey κ] {c : Circuit κ} {d : Dims} {observables : Named (Operator κ)}

omit [RealScalar ρ] [Scalar κ ρ] [OrderKey κ] in
/-- If not all observables have some dimensions, there is a first that does not have them. -/
theorem exists_first_misfit (h : ¬ ∀ o ∈ observables, o.2.HasDims d) :
    ∃ before after name a, observables = before ++ (name, a) :: after ∧
      (∀ o ∈ before, o.2.HasDims d) ∧ ¬ a.HasDims d := by
  induction observables with
  | nil => exact absurd (fun _ ho => absurd ho List.not_mem_nil) h
  | cons o rest ih =>
    by_cases ho : o.2.HasDims d
    · obtain ⟨before, after, name, a, rfl, hbefore, ha⟩ :=
        ih fun hrest => h (List.forall_mem_cons.mpr ⟨ho, hrest⟩)
      exact ⟨o :: before, after, name, a, rfl, List.forall_mem_cons.mpr ⟨ho, hbefore⟩, ha⟩
    · exact ⟨[], rest, o.1, o.2, rfl, fun _ hb => absurd hb List.not_mem_nil, ho⟩

omit [RealScalar ρ] [Scalar κ ρ] in
/-- Observables with the dimensions of the circuit pass, and the first without them is reported. -/
theorem checkObservables_cases (hc : c.dims? = some d)
    (hshapes : ∀ o ∈ observables, o.2.HasCanonicalShape) :
    (∀ o ∈ observables, o.2.HasDims d) ∧ c.checkObservables observables = .ok () ∨
      ∃ before after name a found, observables = before ++ (name, a) :: after ∧
        (∀ o ∈ before, o.2.HasDims d) ∧ a.HasDims found ∧ found ≠ d ∧
          c.checkObservables observables = .error (.observableMismatch name found d) := by
  have hrun (o : String × Operator κ) (ho : o ∈ observables) : ∃ d', o.2.HasDims d' ∧
      discard (walk .pre (observableCheck o.1 d : Rule κ (Except Error)) o.2) =
        if d' = d then .ok () else .error (.observableMismatch o.1 d' d) := by
    obtain ⟨d', hd'⟩ := (hshapes o ho).exists_uniform
    exact ⟨d', hd'.hasDims, run_observableCheck hd'⟩
  have hfits (o : String × Operator κ) (ho : o ∈ observables) (hd : o.2.HasDims d) :
      discard (walk .pre (observableCheck o.1 d : Rule κ (Except Error)) o.2) = .ok () := by
    obtain ⟨d', hd', hcheck⟩ := hrun o ho
    rw [hcheck, if_pos (hd'.unique hd)]
  have hcheck : c.checkObservables observables = observables.forM fun o =>
      discard (walk .pre (observableCheck o.1 d : Rule κ (Except Error)) o.2) := by
    rw [checkObservables, hc]
  rw [hcheck]
  by_cases hall : ∀ o ∈ observables, o.2.HasDims d
  · exact .inl ⟨hall, forM_of_ok fun o ho => hfits o ho (hall o ho)⟩
  · obtain ⟨before, after, name, a, rfl, hbefore, ha⟩ := exists_first_misfit hall
    have hmem : (name, a) ∈ before ++ (name, a) :: after := by simp
    obtain ⟨found, hfound, hmisfit⟩ := hrun _ hmem
    have hne : found ≠ d := by
      rintro rfl
      exact ha hfound
    refine .inr ⟨before, after, name, a, found, rfl, hbefore, hfound, hne, ?_⟩
    refine forM_of_error (fun o ho => hfits o (List.mem_append_left _ ho) (hbefore o ho)) ?_
    rw [hmisfit, if_neg hne]

end Check

/-! Compiling observables -/

omit [RealScalar ρ] [Scalar κ ρ] in
theorem levels_named_le : levels κ (Named (Operator κ)) ≤ growth :=
  (by decide : 1 ≤ growth)

section Compile

variable [OrderKey κ] {s : Settings ρ} {c : Circuit κ} {d : Dims}
  {observables canonical : Named (Operator κ)}

theorem shapes_of_canonicalizeNamed (h : canonicalize κ s observables = .ok canonical) :
    ∀ o ∈ canonical, o.2.HasCanonicalShape := by
  have hshapes := hasCanonicalShape_of_canonicalize levels_named_le h
  rwa [operators_named, List.forall_mem_map] at hshapes

theorem names_of_canonicalize (h : canonicalize κ s observables = .ok canonical) :
    canonical.map Prod.fst = observables.map Prod.fst :=
  names_of_sameOutline ((canonicalize_isOutcome levels_named_le s observables).outline canonical h)

/-- A named list of terms for an observable, of which the observable is the sum. -/
structure ListsTerms (d : Dims) (o : String × Operator κ) (l : String × List (Term κ)) : Prop where
  name : l.1 = o.1
  nonempty : l.2 ≠ []
  terms : IsTermList d l.2
  sum : sum? (l.2.map fun t => .scale t.coeff t.chain) = some o.2

omit [OrderKey κ] in
theorem names_of_listsTerms {out : Named (List (Term κ))}
    (h : List.Forall₂ (ListsTerms d) canonical out) :
    out.map Prod.fst = canonical.map Prod.fst := by
  induction h with
  | nil => rfl
  | cons hl _ ih => rw [List.map_cons, List.map_cons, hl.name, ih]

theorem exists_termLists (hone : ((1 : κ) == 1) = true)
    (hshapes : ∀ o ∈ canonical, o.2.HasCanonicalShape) (hd : ∀ o ∈ canonical, o.2.HasDims d) :
    ∃ out, (canonical.mapM fun (name, a) => return (name, ← a.termList)) = .ok out ∧
      List.Forall₂ (ListsTerms d) canonical out := by
  induction canonical with
  | nil => exact ⟨[], rfl, .nil⟩
  | cons o rest ih =>
    rw [List.forall_mem_cons] at hshapes hd
    obtain ⟨out, hout, hall⟩ := ih hshapes.2 hd.2
    obtain ⟨ts, hsum, hne, hlist, hterms⟩ := hshapes.1.exists_termList hd.1
    refine ⟨(o.1, ts.map KeyedTerm.extracted) :: out, ?_, .cons ?_ hall⟩
    · rw [List.mapM_cons, hout]
      simp only [hlist]
      rfl
    · refine ⟨rfl, by simpa using hne, hterms, ?_⟩
      rw [← hsum, List.map_map]
      refine congrArg sum? (List.map_congr_left fun t _ => ?_)
      simp only [Function.comp_apply, KeyedTerm.extracted_eq hone]
      rfl

/-- Observables with canonical forms compile if these have the dimensions of the circuit. -/
theorem compileObservables_of_fits (hone : ((1 : κ) == 1) = true) (hc : c.dims? = some d)
    (h : canonicalize κ s observables = .ok canonical) (hd : ∀ o ∈ canonical, o.2.HasDims d) :
    ∃ out, c.compileObservables s observables = .ok out ∧
      List.Forall₂ (ListsTerms d) canonical out := by
  have hshapes := shapes_of_canonicalizeNamed h
  obtain ⟨out, hout, hall⟩ := exists_termLists hone hshapes hd
  refine ⟨out, ?_, hall⟩
  rcases checkObservables_cases hc hshapes with
    ⟨-, hcheck⟩ | ⟨_, _, name, a, found, rfl, -, hfound, hne, -⟩
  · rw [compileObservables, h, ok_bind, hcheck, ok_bind]
    exact hout
  · exact absurd (hfound.unique (hd (name, a) (by simp))) hne

/-- Otherwise the misfit with the smallest name is reported. -/
theorem compileObservables_of_misfit (hc : c.dims? = some d) (hsorted : observables.Sorted)
    (h : canonicalize κ s observables = .ok canonical) (hd : ¬ ∀ o ∈ canonical, o.2.HasDims d) :
    ∃ name a found, (name, a) ∈ canonical ∧ a.HasDims found ∧ found ≠ d ∧
      (∀ o ∈ canonical, ¬ o.2.HasDims d → name ≤ o.1) ∧
        c.compileObservables s observables = .error (.observableMismatch name found d) := by
  rcases checkObservables_cases hc (shapes_of_canonicalizeNamed h) with
    ⟨hall, -⟩ | ⟨before, after, name, a, found, hsplit, hbefore, hfound, hne, hcheck⟩
  · exact absurd hall hd
  · have hnames : (canonical.map Prod.fst).Pairwise (· < ·) := by
      rw [names_of_canonicalize h]
      exact hsorted
    rw [hsplit, List.map_append, List.map_cons] at hnames
    have hafter := (List.pairwise_cons.mp (List.pairwise_append.mp hnames).2.1).1
    refine ⟨name, a, found, by simp [hsplit], hfound, hne, ?_, ?_⟩
    · intro o ho hmisfit
      rw [hsplit] at ho
      rcases List.mem_append.mp ho with ho | ho
      · exact absurd (hbefore o ho) hmisfit
      · rcases List.mem_cons.mp ho with rfl | ho
        · exact le_refl _
        · exact le_of_lt (hafter o.1 (List.mem_map_of_mem ho))
    · rw [compileObservables, h, ok_bind, hcheck]
      rfl

/--
For a circuit with dimensions exactly the observables compile whose canonical forms have them: each
then has a list of terms, of which it is the sum. If they have canonical forms and some do not fit,
the one with the smallest name is reported; no node is ever unsupported.
-/
theorem compileObservables_contract (hone : ((1 : κ) == 1) = true) (s : Settings ρ)
    (hc : c.dims? = some d) (hsorted : observables.Sorted) :
    ((∃ out, c.compileObservables s observables = .ok out) ↔
      ∃ canonical, canonicalize κ s observables = .ok canonical ∧
        ∀ o ∈ canonical, o.2.HasDims d) ∧
    (∀ out, c.compileObservables s observables = .ok out →
      ∃ canonical, canonicalize κ s observables = .ok canonical ∧
        out.map Prod.fst = observables.map Prod.fst ∧
        List.Forall₂ (ListsTerms d) canonical out) ∧
    (∀ canonical, canonicalize κ s observables = .ok canonical →
      (¬ ∀ o ∈ canonical, o.2.HasDims d) →
      ∃ name a found, (name, a) ∈ canonical ∧ a.HasDims found ∧ found ≠ d ∧
        (∀ o ∈ canonical, ¬ o.2.HasDims d → name ≤ o.1) ∧
        c.compileObservables s observables = .error (.observableMismatch name found d)) ∧
    ∀ rule text, c.compileObservables s observables ≠ .error (.unsupportedNode rule text) := by
  cases h : canonicalize κ s observables with
  | error e =>
    have hrun : c.compileObservables s observables = .error e := by
      rw [compileObservables, h]
      rfl
    rw [hrun]
    refine ⟨iff_of_false nofun nofun, nofun, nofun, ?_⟩
    rintro rule text ⟨⟩
    exact (canonicalize_isOutcome levels_named_le s observables).failure _ h
  | ok canonical =>
    by_cases hd : ∀ o ∈ canonical, o.2.HasDims d
    · obtain ⟨out, hout, hall⟩ := compileObservables_of_fits hone hc h hd
      have hnames : out.map Prod.fst = observables.map Prod.fst :=
        (names_of_listsTerms hall).trans (names_of_canonicalize h)
      rw [hout]
      refine ⟨iff_of_true ⟨out, rfl⟩ ⟨canonical, rfl, hd⟩, ?_, ?_, nofun⟩
      · rintro _ ⟨⟩
        exact ⟨canonical, rfl, hnames, hall⟩
      · rintro _ ⟨⟩ hmisfit
        exact absurd hd hmisfit
    · obtain ⟨name, a, found, hmisfit⟩ := compileObservables_of_misfit hc hsorted h hd
      have hrun := hmisfit.2.2.2.2
      rw [hrun]
      refine ⟨iff_of_false nofun ?_, nofun, ?_, nofun⟩
      · rintro ⟨_, ⟨⟩, hall⟩
        exact hd hall
      · rintro _ ⟨⟩ -
        exact ⟨name, a, found, hmisfit.1, hmisfit.2.1, hmisfit.2.2.1, hmisfit.2.2.2.1, rfl⟩

end Compile

/-- Two observables of a qubit and a mode. -/
def pair : Named (Operator ComplexDouble) :=
  [("beside", modeThenQubit), ("in order", .kron (.pauli .z) (.mode .annihilation))]

theorem canonicalize_pair :
    canonicalize ComplexDouble ({ maxIterations := 1 } : Settings Double) pair =
      .ok [("beside", qubitThenMode),
        ("in order", .scale (.lit 1) (.kron (.pauli .z) (.mode .annihilation)))] := by
  rw [canonicalize, canonicalization, Pass.run]
  refine runAll_once rfl (runAll_step rfl (runAll_step rfl (runAll_step rfl ?_)))
  refine runAll_once rfl (runAll_step rfl (runAll_once rfl (runAll_step rfl ?_)))
  refine runAll_once rfl (runAll_step rfl (runAll_once rfl (runAll_step rfl ?_)))
  refine runAll_once rfl (runAll_step rfl (runAll_step rfl ?_))
  exact runAll_once rfl (runAll_step rfl (runAll_step rfl rfl))

/-- The two compile for a circuit of a qubit and a mode; one of two qubits reports the first. -/
theorem compileObservables_contract_pair :
    (∃ out, ((evolving qubitThenMode).withDims ⟨1, 1⟩).compileObservables
        ({ maxIterations := 1 } : Settings Double) pair = .ok out ∧
      out.map Prod.fst = ["beside", "in order"]) ∧
    ((evolving qubitThenMode).withDims ⟨2, 0⟩).compileObservables
        ({ maxIterations := 1 } : Settings Double) pair =
      .error (.observableMismatch "beside" ⟨1, 1⟩ ⟨2, 0⟩) := by
  have hsorted : pair.Sorted := by
    unfold Named.Sorted pair
    decide
  constructor
  · obtain ⟨hiff, hlists, -⟩ := compileObservables_contract rfl
      ({ maxIterations := 1 } : Settings Double)
      (c := (evolving qubitThenMode).withDims ⟨1, 1⟩) rfl hsorted
    obtain ⟨out, hout⟩ := hiff.mpr ⟨_, canonicalize_pair, by
      simp only [List.forall_mem_cons, List.not_mem_nil, false_imp_iff, implies_true, and_true]
      exact ⟨rfl, rfl⟩⟩
    obtain ⟨_, _, hnames, _⟩ := hlists out hout
    exact ⟨out, hout, hnames⟩
  · obtain ⟨-, -, hmisfit, -⟩ := compileObservables_contract rfl
      ({ maxIterations := 1 } : Settings Double)
      (c := (evolving qubitThenMode).withDims ⟨2, 0⟩) rfl hsorted
    have hne : ¬ HasDims ⟨2, 0⟩ qubitThenMode := fun h =>
      absurd (h.unique (rfl : HasDims ⟨1, 1⟩ qubitThenMode)) (by decide)
    obtain ⟨name, a, found, hmem, hfound, -, hleast, herror⟩ := hmisfit _ canonicalize_pair
      fun hall => hne (hall _ List.mem_cons_self)
    have hname := hleast _ List.mem_cons_self hne
    rcases List.mem_cons.mp hmem with h | h
    · cases h
      obtain rfl := hfound.unique (rfl : HasDims ⟨1, 1⟩ qubitThenMode)
      exact herror
    · cases List.mem_singleton.mp h
      exact absurd hname (by decide)

end Circuit

end SpinBoson
