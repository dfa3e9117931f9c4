import SpinBoson.Proofs.Canonical.Recognition
import SpinBoson.Proofs.Canonical.Respect

/-!
What canonicalization makes of a value that holds operators. Nothing changes around the operators,
all of them end in the canonical shape, and a run fails for dimensions, in a check, or in reading a
coefficient.
-/
namespace SpinBoson

variable {κ ρ α β : Type}

/-! Where a failure comes from -/

theorem exists_of_mapM_error {ε : Type} {f : α → Except ε β} {as : List α} {e : ε}
    (h : as.mapM f = .error e) : ∃ a ∈ as, f a = .error e := by
  induction as with
  | nil => cases h
  | cons a as ih =>
    rw [List.mapM_cons] at h
    rcases bind_eq_error.mp h with h | ⟨b, _, h⟩
    · exact ⟨a, List.mem_cons_self, h⟩
    · rcases bind_eq_error.mp h with h | ⟨_, _, h⟩
      · obtain ⟨a', ha', h⟩ := ih h
        exact ⟨a', List.mem_cons_of_mem _ ha', h⟩
      · cases h

section Walks

variable {r : Rule κ (Except Error)} {E : Error → Prop}

namespace Operator

theorem up_error (hc : ∀ c e, r.coeff c = .error e → E e)
    (hr : ∀ a e, r.operator a = .error e → E e) {a : Operator κ} {e : Error}
    (h : a.up r = .error e) : E e := by
  induction a with
  | spin | mode => exact hr _ _ h
  | bin op a b iha ihb =>
    rcases bind_eq_error.mp h with h | ⟨a', _, h⟩
    · exact iha h
    · rcases bind_eq_error.mp h with h | ⟨b', _, h⟩
      · exact ihb h
      · exact hr _ _ h
  | scale c a ih =>
    rcases bind_eq_error.mp h with h | ⟨c', _, h⟩
    · exact Coeff.up_error hc h
    · rcases bind_eq_error.mp h with h | ⟨a', _, h⟩
      · exact ih h
      · exact hr _ _ h

theorem down_error (hc : r.coeff = pure) (hr : ∀ a e, r.operator a = .error e → E e) {n : Nat}
    {a : Operator κ} {e : Error} (h : a.down r .first n = .error e) : E e := by
  induction n generalizing a with
  | zero => cases h
  | succ n ih =>
    rcases bind_eq_error.mp h with h | ⟨b, _, h⟩
    · exact hr _ _ h
    · split at h
      · -- the failure comes from below the new node
        cases b with
        | spin | mode => cases h
        | bin op b₁ b₂ =>
          rcases bind_eq_error.mp h with h | ⟨_, _, h⟩
          · exact ih h
          · rcases bind_eq_error.mp h with h | ⟨_, _, h⟩
            · exact ih h
            · cases h
        | scale c b =>
          simp only [mapOperands, Coeff.down_of_coeff_pure hc, pure_bind] at h
          rcases bind_eq_error.mp h with h | ⟨_, _, h⟩
          · exact ih h
          · cases h
      · cases h

end Operator

end Walks

/-! What the runs of a pass yield -/

namespace Pass

variable {O : α → Except Error α → Prop}

mutual

/-- Whether each step gives for every value a result that is allowed for that value. -/
def Yields (O : α → Except Error α → Prop) : Pass α → Prop
  | step _ _ f => ∀ a, O a (f a)
  | chain _ passes => YieldAll O passes
  | fixedPoint _ pass => pass.Yields O

def YieldAll (O : α → Except Error α → Prop) : List (Pass α) → Prop
  | [] => True
  | pass :: rest => pass.Yields O ∧ YieldAll O rest

end

section Results

variable [BEq α] (refl : ∀ a, O a (.ok a)) (trans : ∀ {a b r}, O a (.ok b) → O b r → O a r)

include refl trans

theorem iterate_yields {f : α → Except Error α} (hf : ∀ a, O a (f a)) (left done : Nat) (a : α) :
    O a ((·.1) <$> iterate f left done a) := by
  induction left generalizing done a with
  | zero => exact refl a
  | succ left ih =>
    have hnext := hf a
    rw [iterate]
    cases hfa : f a with
    | error e =>
      rw [hfa] at hnext
      exact hnext
    | ok next =>
      rw [hfa] at hnext
      rw [ok_bind]
      split
      · exact hnext
      · exact trans hnext (ih _ next)

mutual

theorem run_yields : ∀ (pass : Pass α), pass.Yields O → ∀ a, O a (pass.run a)
  | step _ _ _, hpass, a => hpass a
  | chain _ passes, hpass, a => runAll_yields passes hpass a
  | fixedPoint _ pass, hpass, a => iterate_yields refl trans (run_yields pass hpass) _ 0 a

theorem runAll_yields : ∀ (passes : List (Pass α)), YieldAll O passes →
    ∀ a, O a (runAll passes a)
  | [], _, a => refl a
  | pass :: rest, hpasses, a => by
    have hhead := run_yields pass hpasses.1 a
    rw [runAll]
    cases hrun : pass.run a with
    | error e =>
      rw [hrun] at hhead
      exact hhead
    | ok b =>
      rw [hrun] at hhead
      exact trans hhead (runAll_yields rest hpasses.2 b)

end

end Results

/-- A repetition that may run its pass only once is that pass. -/
theorem run_fixedPoint_once [BEq α] (pass : Pass α) (a : α) :
    (fixedPoint 1 pass).run a = pass.run a := by
  rw [run, show iterations 1 = 1 from rfl, iterate]
  cases pass.run a with
  | error e => rfl
  | ok next =>
    rw [ok_bind]
    split <;> rfl

/-- One step of a chain, which is a repetition that may run its pass only once. -/
theorem runAll_once [BEq α] {pass : Pass α} {rest : List (Pass α)} {a b : α}
    {r : Except Error α} (h : pass.run a = .ok b) (hrest : runAll rest b = r) :
    runAll (fixedPoint 1 pass :: rest) a = r :=
  (runAll_cons ((run_fixedPoint_once pass a).trans h)).trans hrest

theorem runAll_step [BEq α] {pass : Pass α} {rest : List (Pass α)} {a b : α}
    {r : Except Error α} (h : pass.run a = .ok b) (hrest : runAll rest b = r) :
    runAll (pass :: rest) a = r :=
  (runAll_cons h).trans hrest

/-- A chain that comes to an end has run its last pass. -/
theorem exists_run_getLast [BEq α] {passes : List (Pass α)} (hne : passes ≠ []) {a b : α}
    (h : runAll passes a = .ok b) : ∃ c, (passes.getLast hne).run c = .ok b := by
  rw [← List.dropLast_append_getLast hne] at h
  obtain ⟨c, _, h⟩ := runAll_append.mp h
  obtain ⟨d, hd, h⟩ := bind_eq_ok.mp h
  cases h
  exact ⟨c, hd⟩

end Pass

/-- Normalization fails in reading text alone. -/
theorem Coeff.normalize_error [RealScalar ρ] [Scalar κ ρ] [OrderKey κ] {s : Settings ρ}
    {c : Coeff κ} {e : Error} (h : c.normalize s = .error e) : ∃ cause, e = .evaluation cause := by
  let E (e : Error) : Prop := ∃ cause, e = .evaluation cause
  let O (_ : Coeff κ) (r : Except Error (Coeff κ)) : Prop := ∀ e, r = .error e → E e
  have plain {name : String} {f : Coeff κ → Coeff κ} :
      (Pass.ofRule .post (Rule.ofCoeff name fun c => .ok (f c) : Rule κ (Except Error)) :
        Pass (Coeff κ)).Yields O := by
    refine fun c e h => up_error (E := E) (fun c e h => ?_) h
    cases h
  have read : (Pass.ofRule .post (readRawRule (κ := κ)) : Pass (Coeff κ)).Yields O := by
    intro c e h
    obtain ⟨cause, rfl⟩ := up_readRaw_error h
    exact ⟨_, rfl⟩
  refine Pass.run_yields (O := O) ?_ (fun _ h => h) (normalization s)
    ⟨read, plain, plain, plain, trivial⟩ c e h
  intro c e h
  cases h

namespace Canonical

open Container Operator Pass

/-- The failures of canonicalization: operands on different subsystems, a property that a check
misses, and text that cannot be read. -/
def IsFailure : Error → Prop
  | .dimensionMismatch _ _ | .verificationFailed _ _ | .evaluation _ => True
  | _ => False

section Rules

variable [RealScalar ρ] [Scalar κ ρ] [OrderKey κ] {s : Settings ρ} {a : Operator κ} {e : Error}

theorem isFailure_of_normalize {c : Coeff κ} (h : c.normalize s = .error e) : IsFailure e := by
  obtain ⟨cause, rfl⟩ := Coeff.normalize_error h
  exact trivial

theorem isFailure_of_sortTerms (h : a.sortTerms s = .error e) : IsFailure e := by
  unfold sortTerms at h
  split at h
  · split at h
    · cases h
    · rcases bind_eq_error.mp h with h | ⟨_, _, h⟩
      · obtain ⟨t, _, h⟩ := exists_of_mapM_error h
        rcases bind_eq_error.mp h with h | ⟨_, _, h⟩
        · exact isFailure_of_normalize h
        · cases h
      · cases h
  · cases h

theorem isFailure_of_normalizeCoeff (h : a.normalizeCoeff s = .error e) : IsFailure e := by
  unfold normalizeCoeff at h
  split at h
  · rcases bind_eq_error.mp h with h | ⟨_, _, h⟩
    · exact isFailure_of_normalize h
    · cases h
  · cases h

end Rules

theorem isFailure_of_verdict {name : String} {a : α} {v : Option Violation} {e : Error}
    (h : Rule.verdict name a v = .error e) : IsFailure e := by
  cases v with
  | none => cases h
  | some v =>
    cases h
    exact trivial

variable [Walkable κ α] [Container κ α]

/-- Whether a result has the outline of a value, or is a failure of canonicalization. -/
structure IsOutcome (κ : Type) [Walkable κ α] [Container κ α] (a : α) (r : Except Error α) :
    Prop where
  outline : ∀ b, r = .ok b → SameOutline (κ := κ) a b
  failure : ∀ e, r = .error e → IsFailure e

theorem isOutcome_refl (a : α) : IsOutcome κ a (.ok a) where
  outline := by
    rintro b ⟨⟩
    exact sameOutline_refl a
  failure := nofun

theorem isOutcome_trans {a b : α} {r : Except Error α} (hab : IsOutcome κ a (.ok b))
    (hr : IsOutcome κ b r) : IsOutcome κ a r where
  outline c hc := sameOutline_trans (hab.outline b rfl) (hr.outline c hc)
  failure := hr.failure

theorem isOutcome_of_visits {f : Operator κ → Except Error (Operator κ)}
    (hf : ∀ x e, f x = .error e → IsFailure e) (a : α) :
    IsOutcome κ a (replace a <$> (operators (κ := κ) a).mapM f) where
  outline _ := sameOutline_of_replace_mapM
  failure e h := by
    obtain ⟨x, _, hx⟩ := exists_of_mapM_error (map_eq_error.mp h)
    exact hf x e hx

section Steps

variable {r : Rule κ (Except Error)}

theorem yields_post {name : String} {isCheck : Bool} (hr : r.LeavesContainers)
    (hc : ∀ c e, r.coeff c = .error e → IsFailure e)
    (hop : ∀ x e, r.operator x = .error e → IsFailure e) :
    (Pass.step name isCheck (walk .post r) : Pass α).Yields (IsOutcome κ) := by
  intro a
  change IsOutcome κ a (Walkable.up r a)
  rw [up_eq hr]
  exact isOutcome_of_visits (fun x e => Operator.up_error hc hop) a

theorem yields_pre {name : String} {isCheck : Bool} (hα : levels κ α ≤ growth)
    (hr : r.LeavesContainers) (hc : r.coeff = pure)
    (hop : ∀ x e, r.operator x = .error e → IsFailure e) :
    (Pass.step name isCheck (walk .pre r) : Pass α).Yields (IsOutcome κ) := by
  intro a
  obtain ⟨n, _, hwalk⟩ := exists_walk_pre hα hr a
  rw [hwalk]
  exact isOutcome_of_visits (fun x e => Operator.down_error hc hop) a

theorem yields_ofOperator {name : String} {f : Operator κ → Operator κ} :
    (Pass.ofRule .post (Rule.ofOperator name fun a => .ok (f a) : Rule κ (Except Error)) :
      Pass α).Yields (IsOutcome κ) :=
  yields_post ⟨rfl, rfl, rfl⟩ nofun nofun

theorem yields_check_post {name : String} {violation? : Operator κ → Option Violation} :
    (check κ .post (Rule.ofCheck name violation?) : Pass α).Yields (IsOutcome κ) :=
  yields_post ⟨rfl, rfl, rfl⟩ nofun fun _ _ => isFailure_of_verdict

theorem yields_check_pre (hα : levels κ α ≤ growth) {name : String}
    {violation? : Operator κ → Option Violation} {descends : Operator κ → Bool} :
    (check κ .pre ((Rule.ofCheck name violation?).descending descends) : Pass α).Yields
      (IsOutcome κ) :=
  yields_pre hα ⟨rfl, rfl, rfl⟩ rfl fun _ _ => isFailure_of_verdict

theorem yields_checkSignatures [BEq α] (hα : levels κ α ≤ growth) :
    (checkSignatures κ : Pass α).Yields (IsOutcome κ) := by
  rw [checkSignatures_eq]
  intro a
  have hcases := checkSignatures_cases hα a
  rw [checkSignatures_eq, Pass.run] at hcases
  change IsOutcome κ a ((walk (.inOrder true) (signatureCheck (κ := κ)) a).run none).1
  rcases hcases with ⟨_, hrun⟩ | ⟨_, e, ⟨l, r, rfl⟩, hrun⟩
  · rw [hrun]
    exact isOutcome_refl a
  · rw [hrun]
    refine ⟨nofun, ?_⟩
    rintro e ⟨⟩
    exact trivial

end Steps

variable [RealScalar ρ] [Scalar κ ρ] [OrderKey κ] [BEq α]

theorem yields_verification (hα : levels κ α ≤ growth) :
    (verification κ : Pass α).Yields (IsOutcome κ) :=
  ⟨yields_check_post, yields_check_post, yields_checkSignatures hα, yields_check_post,
    yields_check_post, yields_check_post, yields_check_post, yields_check_pre hα,
    yields_check_pre hα,
    yields_post ⟨rfl, rfl, rfl⟩ (fun _ _ => isFailure_of_verdict) fun _ _ => isFailure_of_verdict,
    trivial⟩

theorem yields_canonicalization (hα : levels κ α ≤ growth) (s : Settings ρ) :
    (canonicalization κ s : Pass α).Yields (IsOutcome κ) := by
  have gather : (Pass.ofRule .post (gatherRule (κ := κ)) : Pass α).Yields (IsOutcome κ) :=
    yields_ofOperator
  have scale : (Pass.ofRule .pre (scaleTermsRule (κ := κ)) : Pass α).Yields (IsOutcome κ) :=
    yields_pre hα ⟨rfl, rfl, rfl⟩ rfl nofun
  have sort : (Pass.ofRule .pre (sortTermsRule (κ := κ) s) : Pass α).Yields (IsOutcome κ) :=
    yields_pre hα ⟨rfl, rfl, rfl⟩ rfl fun _ _ => isFailure_of_sortTerms
  have normalize : (Pass.ofRule .post (normalizeCoeffRule (κ := κ) s) : Pass α).Yields
      (IsOutcome κ) :=
    yields_post ⟨rfl, rfl, rfl⟩ nofun fun _ _ => isFailure_of_normalizeCoeff
  exact ⟨⟨yields_ofOperator, gather, trivial⟩, yields_check_post, yields_check_post,
    yields_checkSignatures hα, ⟨yields_ofOperator, gather, trivial⟩, yields_check_post,
    yields_ofOperator, yields_check_post, ⟨yields_ofOperator, yields_ofOperator, gather, trivial⟩,
    yields_check_post, yields_ofOperator, yields_check_post, ⟨scale, gather, trivial⟩,
    yields_check_pre hα, yields_check_post, sort, yields_check_pre hα, normalize,
    yields_verification hα, trivial⟩

/-- Canonicalization keeps what is around the operators of a value, or fails in one of its ways. -/
theorem canonicalize_isOutcome (hα : levels κ α ≤ growth) (s : Settings ρ) (a : α) :
    IsOutcome κ a (canonicalize κ s a) :=
  run_yields isOutcome_refl isOutcome_trans _ (yields_canonicalization hα s) a

/-- All operators of a canonical value have the canonical shape. -/
theorem hasCanonicalShape_of_canonicalize (hα : levels κ α ≤ growth) {s : Settings ρ} {a b : α}
    (h : canonicalize κ s a = .ok b) : ∀ x ∈ operators (κ := κ) b, x.HasCanonicalShape := by
  obtain ⟨c, hc⟩ := exists_run_getLast (List.cons_ne_nil _ _) h
  obtain ⟨rfl, hshape⟩ := (verification_accepts hα c b).mp hc
  exact hshape

end Canonical

end SpinBoson
