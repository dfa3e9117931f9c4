import SpinBoson.Proofs.Operator.Checks

/-!
Relations that the way to the canonical form respects: those that may be used at any place of a tree
and that hold between a node and what each rule makes of it.
-/
namespace SpinBoson

namespace Pass

variable {α : Type} {R : α → α → Prop}

theorem respectsAll_append {xs ys : List (Pass α)} (hxs : RespectsAll R xs)
    (hys : RespectsAll R ys) : RespectsAll R (xs ++ ys) := by
  induction xs with
  | nil => exact hys
  | cons x xs ih => exact ⟨hxs.1, ih hxs.2⟩

theorem runAll_append [BEq α] {xs ys : List (Pass α)} {a b : α} :
    runAll (xs ++ ys) a = .ok b ↔ ∃ c, runAll xs a = .ok c ∧ runAll ys c = .ok b := by
  induction xs generalizing a with
  | nil => exact ⟨fun h => ⟨a, rfl, h⟩, fun ⟨_, ha, h⟩ => Except.ok.inj ha ▸ h⟩
  | cons x xs ih =>
    simp only [List.cons_append, runAll, bind_eq_ok, ih]
    exact ⟨fun ⟨d, hd, c, hc, h⟩ => ⟨c, ⟨d, hd, hc⟩, h⟩,
      fun ⟨c, ⟨d, hd, hc⟩, h⟩ => ⟨d, hd, c, hc, h⟩⟩

theorem settlesAll_append [BEq α] {nested : String → α → Prop} {xs ys : List (Pass α)} {a : α} :
    SettlesAll nested (xs ++ ys) a ↔
      SettlesAll nested xs a ∧ ∀ b, runAll xs a = .ok b → SettlesAll nested ys b := by
  induction xs generalizing a with
  | nil =>
    refine ⟨fun h => ⟨trivial, fun b hb => ?_⟩, fun h => h.2 a rfl⟩
    cases hb
    exact h
  | cons x xs ih =>
    simp only [List.cons_append, SettlesAll, ih, runAll, bind_eq_ok]
    constructor
    · rintro ⟨hx, hrest⟩
      exact ⟨⟨hx, fun b hb => (hrest b hb).1⟩, fun c ⟨b, hb, hc⟩ => (hrest b hb).2 c hc⟩
    · rintro ⟨⟨hx, hxs⟩, hys⟩
      exact ⟨hx, fun b hb => ⟨hxs b hb, fun c hc => hys c ⟨b, hb, hc⟩⟩⟩

end Pass

namespace Canonical

open Operator

variable {κ ρ : Type}

/-- Relations between nodes and what the rules that act on operators alone make of them. -/
structure KeptByRules [RealScalar ρ] [Scalar κ ρ] (R : Operator κ → Operator κ → Prop) : Prop where
  congruence : Congruence R
  distribute : ∀ a, R a a.distribute
  gatherCoeffs : ∀ a, R a a.gatherCoeffs
  reducePauli : ∀ a, R a a.reducePauli
  gatherQubits : ∀ a, R a a.gatherQubits
  normalOrder : ∀ a, R a a.normalOrder
  pruneIdentity : ∀ a, R a a.pruneIdentity
  scaleTerm : ∀ a, R a a.scaleTerm

section Steps

variable {R : Operator κ → Operator κ → Prop} (hR : Congruence R)

include hR

theorem respects_post {r : Rule κ (Except Error)} (hc : r.coeff = pure)
    (hr : ∀ a b, r.operator a = .ok b → R a b) :
    (Pass.ofRule .post r : Pass (Operator κ)).Respects R :=
  fun _ _ h => up_related hR (by rw [hc]; rintro c _ ⟨⟩; rfl) hr h

theorem respects_pre {r : Rule κ (Except Error)} (hc : r.coeff = pure)
    (hr : ∀ a b, r.operator a = .ok b → R a b) :
    (Pass.ofRule .pre r : Pass (Operator κ)).Respects R := by
  intro a b h
  obtain ⟨n, _, hn⟩ := exists_walk_pre r a
  exact down_related hR hc hr .first n (hn.symm.trans h)

theorem respects_ofOperator {name : String} {f : Operator κ → Operator κ} (hf : ∀ a, R a (f a)) :
    (Pass.ofRule .post (Rule.ofOperator name fun a => .ok (f a) : Rule κ (Except Error)) :
      Pass (Operator κ)).Respects R := by
  refine respects_post hR rfl ?_
  rintro a _ ⟨⟩
  exact hf a

theorem respects_of_eq {f : Operator κ → Except Error (Operator κ)} {name : String} {isCheck : Bool}
    (hf : ∀ a b, f a = .ok b → a = b) : (Pass.step name isCheck f).Respects R := by
  intro a b h
  rw [← hf a b h]
  exact hR.refl a

theorem respects_check_post {name : String} {violation? : Operator κ → Option Violation} :
    (check κ .post (Rule.ofCheck name violation?) : Pass (Operator κ)).Respects R := by
  rw [check_eq]
  exact respects_of_eq hR fun _ _ h => check_post_eq (by rintro c _ ⟨⟩; rfl)
    (fun _ _ h => (Rule.verdict_eq_ok.mp h).2) h

theorem respects_check_pre {name : String} {violation? : Operator κ → Option Violation}
    {descends : Operator κ → Bool} :
    (check κ .pre ((Rule.ofCheck name violation?).descending descends) :
      Pass (Operator κ)).Respects R := by
  rw [check_eq]
  exact respects_of_eq hR fun _ _ h =>
    check_pre_eq rfl (fun _ _ h => (Rule.verdict_eq_ok.mp h).2) h

theorem respects_properOrderCheck [RealScalar ρ] [Scalar κ ρ] [OrderKey κ] :
    (check κ .post properOrderCheck : Pass (Operator κ)).Respects R := by
  rw [check_eq]
  exact respects_of_eq hR fun _ _ h => check_post_eq (fun _ _ h => (Rule.verdict_eq_ok.mp h).2)
    (fun _ _ h => (Rule.verdict_eq_ok.mp h).2) h

theorem respects_checkSignatures [BEq κ] : (checkSignatures κ : Pass (Operator κ)).Respects R := by
  rw [checkSignatures_eq]
  refine respects_of_eq hR fun a b h => ?_
  have hrun := checkSignatures_run a
  rw [checkSignatures_eq, Pass.run] at hrun
  split at hrun
  · exact Except.ok.inj (hrun.symm.trans h)
  · obtain ⟨l, r, hrun⟩ := hrun
    cases hrun.symm.trans h

theorem respects_verification [RealScalar ρ] [Scalar κ ρ] [OrderKey κ] :
    (verification κ : Pass (Operator κ)).Respects R :=
  ⟨respects_check_post hR, respects_check_post hR, respects_checkSignatures hR,
    respects_check_post hR, respects_check_post hR, respects_check_post hR,
    respects_check_post hR, respects_check_pre hR, respects_check_pre hR,
    respects_properOrderCheck hR, trivial⟩

end Steps

/-! The two parts of the way -/

variable [RealScalar ρ] [Scalar κ ρ] {R : Operator κ → Operator κ → Prop}

variable (κ) in
/-- The steps that expand an operator into a sum of terms, with their checks. -/
def expansion (s : Settings ρ) : List (Pass (Operator κ)) :=
  [.fixedPoint s.maxIterations
      (.chain "distribute"
        [.ofRule .post (distributeRule (κ := κ)), .ofRule .post (gatherRule (κ := κ))]),
    check κ .post distributedCheck,
    check κ .post gatheredCheck,
    checkSignatures κ,
    .fixedPoint s.maxIterations
      (.chain "pauli algebra"
        [.ofRule .post (pauliRule (κ := κ)), .ofRule .post (gatherRule (κ := κ))]),
    check κ .post pauliCheck,
    .fixedPoint s.maxIterations (.ofRule .post (gatherQubitsRule (κ := κ))),
    check κ .post gatheredQubitsCheck,
    .fixedPoint s.maxIterations
      (.chain "normal order"
        [.ofRule .post (normalOrderRule (κ := κ)), .ofRule .post (distributeRule (κ := κ)),
          .ofRule .post (gatherRule (κ := κ))]),
    check κ .post normalOrderCheck,
    .fixedPoint s.maxIterations (.ofRule .post (pruneRule (κ := κ))),
    check κ .post prunedCheck,
    .fixedPoint s.maxIterations
      (.chain "scale terms"
        [.ofRule .pre (scaleTermsRule (κ := κ)), .ofRule .post (gatherRule (κ := κ))]),
    check κ .pre scaledTermsCheck,
    check κ .post gatheredCheck]

theorem expansion_respects (h : KeptByRules R) (s : Settings ρ) :
    Pass.RespectsAll R (expansion κ s) := by
  have hR := h.congruence
  have gather : (Pass.ofRule .post (gatherRule (κ := κ)) : Pass (Operator κ)).Respects R :=
    respects_ofOperator hR h.gatherCoeffs
  have distribute : (Pass.ofRule .post (distributeRule (κ := κ)) : Pass (Operator κ)).Respects R :=
    respects_ofOperator hR h.distribute
  exact
    ⟨⟨distribute, gather, trivial⟩,
      respects_check_post hR, respects_check_post hR, respects_checkSignatures hR,
      ⟨respects_ofOperator hR h.reducePauli, gather, trivial⟩, respects_check_post hR,
      respects_ofOperator hR h.gatherQubits, respects_check_post hR,
      ⟨respects_ofOperator hR h.normalOrder, distribute, gather, trivial⟩, respects_check_post hR,
      respects_ofOperator hR h.pruneIdentity, respects_check_post hR,
      ⟨respects_pre hR rfl (by rintro a _ ⟨⟩; exact h.scaleTerm a), gather, trivial⟩,
      respects_check_pre hR, respects_check_post hR, trivial⟩

variable [OrderKey κ]

variable (κ) in
/-- The steps that sort and merge the terms and bring their coefficients into normal form. -/
def completion (s : Settings ρ) : List (Pass (Operator κ)) :=
  [.fixedPoint s.maxIterations (.ofRule .pre (sortTermsRule (κ := κ) s)),
    check κ .pre sortedTermsCheck,
    .ofRule .post (normalizeCoeffRule (κ := κ) s),
    verification κ]

theorem canonicalization_eq (s : Settings ρ) :
    canonicalization κ s =
      Pass.chain "analog operator canonicalization" (expansion κ s ++ completion κ s) := rfl

theorem completion_respects (hR : Congruence R) {s : Settings ρ}
    (hsort : ∀ a b, a.sortTerms s = .ok b → R a b)
    (hnormalize : ∀ a b, a.normalizeCoeff s = .ok b → R a b) :
    Pass.RespectsAll R (completion κ s) :=
  ⟨respects_pre hR rfl hsort, respects_check_pre hR, respects_post hR rfl hnormalize,
    respects_verification hR, trivial⟩

theorem canonicalization_respects (h : KeptByRules R) {s : Settings ρ}
    (hsort : ∀ a b, a.sortTerms s = .ok b → R a b)
    (hnormalize : ∀ a b, a.normalizeCoeff s = .ok b → R a b) :
    (canonicalization κ s : Pass (Operator κ)).Respects R := by
  rw [canonicalization_eq]
  exact Pass.respectsAll_append (expansion_respects h s)
    (completion_respects h.congruence hsort hnormalize)

/-- What every step keeps the whole way keeps. -/
theorem canonicalize_related (h : KeptByRules R) {s : Settings ρ}
    (hsort : ∀ a b, a.sortTerms s = .ok b → R a b)
    (hnormalize : ∀ a b, a.normalizeCoeff s = .ok b → R a b) {a v : Operator κ}
    (hv : canonicalize κ s a = .ok v) : R a v :=
  Pass.run_related h.congruence.refl h.congruence.trans _
    (canonicalization_respects h hsort hnormalize) hv

end Canonical

end SpinBoson
