import SpinBoson.Coeff.Basic
import SpinBoson.Coeff.Key
import Std.Data.HashMap

/-!
Products as a number times symbolic factors, and sums with the numbers of equal factors added up.
-/
namespace SpinBoson.Coeff

variable {κ ρ : Type} [RealScalar ρ] [Scalar κ ρ] [OrderKey κ]

/-- A number and the symbolic factors it stands before. -/
abbrev Monomial (κ : Type) := κ × List (Coeff κ)

/-- The product of all literal factors, and the other factors in order. -/
def monomial (e : Coeff κ) : Monomial κ :=
  let numbers := e.factors.filterMap literal?
  (numbers.foldl (· * ·) 1, e.factors.filter fun factor => factor.literal?.isNone)

/-- The left-nested product; a leading one is left out unless it stands alone. -/
def ofMonomial (t : Monomial κ) : Coeff κ :=
  match t with
  | (z, []) => lit z
  | (z, e :: rest) =>
    if z == 1 then rest.foldl mul e else (e :: rest).foldl mul (lit z)

omit [OrderKey κ] in
theorem leftNested_ofMonomial_of_one {t : Monomial κ} (hone : (t.1 == 1) = true) (hne : t.2 ≠ []) :
    leftNested? mul t.2 = some (ofMonomial t) := by
  obtain ⟨z, es⟩ := t
  cases es with
  | nil => exact absurd rfl hne
  | cons e rest =>
    dsimp only at hone
    simp only [ofMonomial, hone, if_true]
    rfl

omit [OrderKey κ] in
/-- The product of the factors alone, or of the number and the factors. -/
theorem leftNested_ofMonomial (t : Monomial κ) :
    (t.1 == 1) = true ∧ leftNested? mul t.2 = some (ofMonomial t) ∨
      leftNested? mul (lit t.1 :: t.2) = some (ofMonomial t) := by
  by_cases h : (t.1 == 1) = true ∧ t.2 ≠ []
  · exact .inl ⟨h.1, leftNested_ofMonomial_of_one h.1 h.2⟩
  · right
    obtain ⟨z, es⟩ := t
    cases es with
    | nil => rfl
    | cons e rest =>
      have hz : (z == 1) = false := Bool.eq_false_iff.mpr fun hz => h ⟨hz, List.cons_ne_nil e rest⟩
      simp only [ofMonomial, hz, Bool.false_eq_true, if_false]
      rfl

/-- Monomials with different factors, in order of appearance, and where each hash occurs. -/
structure Groups (κ : Type) where
  members : Array (Monomial κ)
  places : Std.HashMap UInt64 (List Nat)

namespace Groups

def empty : Groups κ :=
  ⟨#[], ∅⟩

/-- A hash of factors in which their order counts. -/
def hash (factors : List (Coeff κ)) : UInt64 :=
  factors.foldl (fun h e => Digest.rotateLeft h 7 ^^^ UInt64.ofNat (OrderKey.key e)) 0

/-- Adds the number to the group of equal factors among those of the same hash, or opens one. -/
def insert (g : Groups κ) (t : Monomial κ) : Groups κ :=
  let h := hash t.2
  let candidates := (g.places[h]?).getD []
  let isEqual (i : Nat) : Bool :=
    match g.members[i]? with
    | some m => m.2 == t.2
    | none => false
  match candidates.find? isEqual with
  | some i => { g with members := g.members.modify i fun m => (m.1 + t.1, m.2) }
  | none => ⟨g.members.push t, g.places.insert h (candidates ++ [g.members.size])⟩

def ofMonomials (ts : List (Monomial κ)) : Groups κ :=
  ts.foldl insert empty

end Groups

/-- The monomials of a sum with equal factors collected. -/
def groupTerms (e : Coeff κ) : List (Monomial κ) :=
  (Groups.ofMonomials (e.terms.map monomial)).members.toList

/-- A product with one number in front; nothing is left of one with a negligible number. -/
def collectProduct (tolerance : ρ) (e : Coeff κ) : Coeff κ :=
  let t := e.monomial
  if Scalar.isNegligible tolerance t.1 then lit 0 else ofMonomial t

/-- A sum in which no symbolic factors occur twice and no number is negligible. -/
def collectSum (tolerance : ρ) (e : Coeff κ) : Coeff κ :=
  let kept := e.groupTerms.filter fun t => !Scalar.isNegligible tolerance t.1
  (leftNested? add (kept.map ofMonomial)).getD (lit 0)

end SpinBoson.Coeff
