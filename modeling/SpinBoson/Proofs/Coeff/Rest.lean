import SpinBoson.Proofs.ClosedForms
import SpinBoson.Proofs.Coeff.Closed

/-!
Normalization comes to rest: with every cap that is large enough it leads to the same coefficient,
and all its repetitions end by themselves. Over exact scalars no literal stands in the way of that.
-/
namespace SpinBoson

/-- Settings with another cap on repetitions. -/
def Settings.capped {ρ : Type} [RealScalar ρ] (s : Settings ρ) (cap : Nat) : Settings ρ :=
  { s with maxIterations := cap }

namespace Coeff

open Filter Pass

variable {κ ρ : Type} [RealScalar ρ] [Scalar κ ρ]

section LargeCaps

variable [OrderKey κ]

/-- What normalization reaches without caps it reaches with every cap that is large enough. -/
theorem eventually_normalize {s : Settings ρ} {c n : Coeff κ}
    (hfin : ∀ x, (normalization s).Meets c x → x.FiniteLiterals)
    (h : (normalization s).Reaches c n) :
    ∀ᶠ cap in atTop, c.normalize (s.capped cap) = .ok n ∧ c.Settles (s.capped cap) :=
  eventually_of_reaches (normalization s) hfin h

end LargeCaps

/-! Exact scalars -/

section Exact

variable [ExactRing κ]

theorem finiteLiterals_of_exact (e : Coeff κ) : e.FiniteLiterals := by
  refine allNodes_of_forall (fun x z _ => ?_) e
  rw [Scalar.IsFinite, one_mul]
  exact BEq.rfl

/-- With every cap that is large enough normalization leads to the same normal form. -/
theorem exists_normal [OrderKey κ] (s : Settings ρ) {c : Coeff κ} (hc : c.Readable) :
    ∃ n, n.InNormalForm s.tolerance ∧
      ∀ᶠ cap in atTop, c.normalize (s.capped cap) = .ok n ∧ c.Settles (s.capped cap) := by
  obtain ⟨n, hreach, -⟩ := normalization_halts s hc c rfl fun x _ => finiteLiterals_of_exact x
  have hn := eventually_normalize (fun x _ => finiteLiterals_of_exact x) hreach
  obtain ⟨cap, hrun, hset⟩ := hn.exists
  obtain ⟨n', hn', hstable, -⟩ := normalize_settled (s := s.capped cap) hc hset
  obtain rfl := Except.ok.inj (hrun.symm.trans hn')
  exact ⟨n, hstable.normal, hn⟩

end Exact

/-! Any keys -/

/--
Whatever the keys that operands are sorted by, normalization without caps ends on every readable
coefficient if it meets finite literals only, and all its repetitions end by themselves with every
cap that is large enough.
-/
theorem normalization_comes_to_rest [LawfulTest κ] [OrderKey κ] (s : Settings ρ) {c : Coeff κ}
    (hread : c.Readable) (hfin : ∀ x, (normalization s).Meets c x → x.FiniteLiterals) :
    ∃ n, (normalization s).Reaches c n ∧ ∃ bound, ∀ cap ≥ bound,
      c.normalize (s.capped cap) = .ok n ∧ c.Settles (s.capped cap) := by
  obtain ⟨n, hn, -⟩ := normalization_halts s hread c rfl hfin
  exact ⟨n, hn, eventually_atTop.mp (eventually_normalize hfin hn)⟩

/-- A square of a sum comes to rest. -/
theorem square_comes_to_rest : ∃ (s : Settings ClosedReal) (c : Coeff ClosedNumber),
    c = mul (add (var "x") (lit 1)) (add (var "x") (lit 1)) ∧ c.Readable ∧
      (∀ x, (normalization s).Meets c x → x.FiniteLiterals) ∧
      ∃ n, (normalization s).Reaches c n ∧ ∃ bound, ∀ cap ≥ bound,
        c.normalize (s.capped cap) = .ok n ∧ c.Settles (s.capped cap) := by
  have hread : (mul (add (var "x") (lit 1)) (add (var "x") (lit 1)) : Coeff ClosedNumber).Readable := by
    simp [Readable, AllNodes]
  have hfin : ∀ x : Coeff ClosedNumber, x.FiniteLiterals := finiteLiterals_of_exact
  exact ⟨⟨0, 0⟩, _, rfl, hread, fun x _ => hfin x,
    normalization_comes_to_rest _ hread fun x _ => hfin x⟩

end Coeff

end SpinBoson
