import SpinBoson.Canonical.Distributed
import SpinBoson.Coeff.Normal
import SpinBoson.Operator.TermKey

/-!
Sums of scaled terms in the order of their keys, each key once, with coefficients in normal form.
-/
namespace SpinBoson.Operator

variable {κ ρ : Type} [RealScalar ρ] [Scalar κ ρ]

/-- Gives a term the coefficient one unless it has a coefficient. -/
def scaleTerm : Operator κ → Operator κ
  | add a b => add a b
  | scale c a => scale c a
  | a => scale (.lit 1) a

/-- A term by its parts. -/
structure KeyedTerm (κ : Type) where
  key : TermKey
  coeff : Coeff κ
  chain : Operator κ

/-- The parts of a term; an unscaled one has the coefficient one. -/
def keyed? (a : Operator κ) : Option (KeyedTerm κ) :=
  match a with
  | scale c chain => a.termKey?.map fun key => ⟨key, c, chain⟩
  | chain => a.termKey?.map fun key => ⟨key, .lit 1, chain⟩

/-- Adds the coefficients of neighbours with equal keys; the first of their chains stays. -/
def mergeKeyed : List (KeyedTerm κ) → List (KeyedTerm κ)
  | [] => []
  | t :: rest => go t rest
where
  go (t : KeyedTerm κ) : List (KeyedTerm κ) → List (KeyedTerm κ)
    | [] => [t]
    | u :: rest =>
      if u.key = t.key then go { t with coeff := .add t.coeff u.coeff } rest
      else t :: go u rest

/-- Whether a coefficient is a literal of negligible magnitude. -/
def isNegligible (tolerance : ρ) (c : Coeff κ) : Bool :=
  match c with
  | .lit z => Scalar.isNegligible tolerance z
  | _ => false

/--
The sum of the terms without those of negligible coefficient; when none is left, the first stays
with the coefficient zero.
-/
def sumOfKeyed? (tolerance : ρ) (ts : List (KeyedTerm κ)) : Option (Operator κ) :=
  let kept := ts.filter fun t => !isNegligible tolerance t.coeff
  match sum? (kept.map fun t => scale t.coeff t.chain) with
  | some a => some a
  | none => ts.head?.map fun t => scale (.lit 0) t.chain

section

variable [OrderKey κ]

/-- The terms in order, those with equal keys merged and all coefficients in normal form. -/
def sortedTerms (s : Settings ρ) (ts : List (KeyedTerm κ)) : Except Error (List (KeyedTerm κ)) :=
  let sorted := ts.mergeSort fun t u => t.key.le u.key
  (mergeKeyed sorted).mapM fun t => return { t with coeff := ← t.coeff.normalize s }

/-- Sorts and merges the terms of a sum; a sum with a term that has no key is left alone. -/
def sortTerms (s : Settings ρ) (a : Operator κ) : Except Error (Operator κ) :=
  match a with
  | add _ _ =>
    match a.terms.mapM keyed? with
    | none => .ok a
    | some ts => do
      let sorted := (sumOfKeyed? s.tolerance (← sortedTerms s ts)).getD a
      return if sorted == a then a else sorted
  | a => .ok a

/-- Brings the coefficient of a scaled operator into normal form. -/
def normalizeCoeff (s : Settings ρ) (a : Operator κ) : Except Error (Operator κ) :=
  match a with
  | scale c x => do
    let n ← c.normalize s
    return if n == c then a else scale n x
  | a => .ok a

end

/-- What is wrong with the first of some terms that has no coefficient or no greater key than its
neighbour to the left. -/
def termsViolation? : (previous : Option TermKey) → List (Operator κ) → Option Violation
  | _, [] => none
  | previous, t :: rest =>
    if !t.isScaled then some (.unscaledTerm t.text)
    else
      match t.termKey? with
      | none => some (.termWithoutKey t.text)
      | some key =>
        if previous.any fun p => key.le p then some (.termOutOfOrder t.text)
        else termsViolation? (some key) rest

/-- Where the terms of a sum are not in order. -/
def sortedTermsViolation? (a : Operator κ) : Option Violation :=
  match a with
  | add _ _ => termsViolation? none a.terms
  | _ => none

/-- Where a sum, a product or a tensor product has one of its own kind on its right. -/
def nestingViolation? (a : Operator κ) : Option Violation :=
  match a with
  | add _ (add _ _) | mul _ (mul _ _) | kron _ (kron _ _) => some (.notLeftNested a.text)
  | _ => none

/-- Whether keys never decrease from one operand to the next. -/
def keysAscend : List (Nat × Nat) → Bool
  | a :: b :: rest => Coeff.keyLE a b && keysAscend (b :: rest)
  | _ => true

/-- Where a sum or product of coefficients is not nested to the left, or not sorted. -/
def coeffOrderViolation? [OrderKey κ] (e : Coeff κ) : Option Violation :=
  let unlessSorted (operands : List (Coeff κ)) : Option Violation :=
    if keysAscend (operands.map Coeff.orderKey) then none else some (.operandsNotSorted e.text)
  match e with
  | .add _ (.add _ _) | .mul _ (.mul _ _) => some (.notLeftNested e.text)
  | .add _ _ => unlessSorted e.terms
  | .mul _ _ => unlessSorted e.factors
  | _ => none

/-- A walk with this rule from the root down meets the terms of the outermost sum. -/
def scaleTermsRule : Rule κ (Except Error) :=
  (Rule.ofOperator "ScaleTerms" fun (a : Operator κ) => .ok a.scaleTerm).descending isSum

def scaledTermsCheck : Rule κ (Except Error) :=
  (Rule.ofCheck "VerifyScaledTerms" fun (a : Operator κ) =>
    if a.isSum || a.isScaled then none else some (.unscaledTerm a.text)).descending isSum

/-- A walk with this rule from the root down takes each outermost sum as a whole. -/
def sortTermsRule [OrderKey κ] (s : Settings ρ) : Rule κ (Except Error) :=
  (Rule.ofOperator "SortedOrder" fun (a : Operator κ) => a.sortTerms s).descending
    fun a => !a.isSum

def sortedTermsCheck : Rule κ (Except Error) :=
  (Rule.ofCheck "VerifySortedOrder" fun (a : Operator κ) =>
    a.sortedTermsViolation?).descending fun a => !a.isSum

def normalizeCoeffRule [OrderKey κ] (s : Settings ρ) : Rule κ (Except Error) :=
  .ofOperator "NormalizeCoefficients" fun (a : Operator κ) => a.normalizeCoeff s

def properOrderCheck [OrderKey κ] : Rule κ (Except Error) :=
  let name := "VerifyProperOrder"
  { Rule.ofCheck name nestingViolation? with
    coeff := fun e => Rule.verdict name e (coeffOrderViolation? e) }

end SpinBoson.Operator
