import SpinBoson.LeftNested
import SpinBoson.Scalar.Basic

/-! Coefficients: symbolic scalar expressions over literals of any scalar type. -/
namespace SpinBoson

/-- The arithmetic operations on two coefficients. -/
inductive Coeff.Op where
  | add | sub | mul | div | pow
deriving DecidableEq, Inhabited

/-- A symbolic scalar expression. -/
inductive Coeff (κ : Type) where
  | lit (z : κ)
  | var (name : String)
  /-- Text that has not been read yet. -/
  | raw (text : String)
  | neg (e : Coeff κ)
  | bin (op : Coeff.Op) (a b : Coeff κ)
  | app (f : Func) (e : Coeff κ)
deriving BEq, Inhabited

namespace Coeff

variable {κ ρ : Type}

@[match_pattern]
abbrev add (a b : Coeff κ) : Coeff κ := bin .add a b

@[match_pattern]
abbrev sub (a b : Coeff κ) : Coeff κ := bin .sub a b

@[match_pattern]
abbrev mul (a b : Coeff κ) : Coeff κ := bin .mul a b

@[match_pattern]
abbrev div (a b : Coeff κ) : Coeff κ := bin .div a b

@[match_pattern]
abbrev pow (a b : Coeff κ) : Coeff κ := bin .pow a b

def literal? : Coeff κ → Option κ
  | lit z => some z
  | _ => none

/-- Whether some variable or unread text occurs. -/
def isSymbolic : Coeff κ → Bool
  | lit _ => false
  | var _ | raw _ => true
  | neg e | app _ e => e.isSymbolic
  | bin _ a b => a.isSymbolic || b.isSymbolic

/-- The number of levels of the tree. -/
def height : Coeff κ → Nat
  | lit _ | var _ | raw _ => 1
  | neg e | app _ e => e.height + 1
  | bin _ a b => max a.height b.height + 1

/-- The operands of a chain of `op`, left to right, in front of `rest`. -/
def operandsBefore (op : Op) : Coeff κ → List (Coeff κ) → List (Coeff κ)
  | bin op' a b, rest =>
    if op' = op then operandsBefore op a (operandsBefore op b rest) else bin op' a b :: rest
  | e, rest => e :: rest

/-- The operands of a chain of `op`, however it is associated; any other node is its own operand. -/
def operands (op : Op) (e : Coeff κ) : List (Coeff κ) :=
  operandsBefore op e []

theorem operandsBefore_eq (op : Op) (e : Coeff κ) (rest : List (Coeff κ)) :
    operandsBefore op e rest = operands op e ++ rest := by
  unfold operands
  induction e generalizing rest with
  | bin op' a b iha ihb =>
    by_cases h : op' = op
    · simp only [operandsBefore, h, if_true]
      rw [iha, ihb, iha (operandsBefore op b []), List.append_assoc]
    · simp [operandsBefore, h]
  | _ => simp [operandsBefore]

@[simp]
theorem operands_bin_self (op : Op) (a b : Coeff κ) :
    operands op (bin op a b) = operands op a ++ operands op b := by
  simp [operands, operandsBefore, operandsBefore_eq op a (operandsBefore op b [])]

@[simp]
theorem operands_bin_of_ne {op op' : Op} (h : op' ≠ op) (a b : Coeff κ) :
    operands op (bin op' a b) = [bin op' a b] := by
  simp [operands, operandsBefore, h]

/-- Induction along a chain of `op`, in which any other node is its own operand. -/
@[elab_as_elim]
theorem operands_induction (op : Op) {motive : Coeff κ → Prop}
    (single : ∀ e, operands op e = [e] → motive e)
    (bin : ∀ a b, motive a → motive b → motive (bin op a b)) (e : Coeff κ) : motive e := by
  induction e with
  | bin op' a b iha ihb =>
    by_cases h : op' = op
    · subst h
      exact bin a b iha ihb
    · exact single _ (operands_bin_of_ne h a b)
  | lit | var | raw | neg | app => exact single _ rfl

theorem operands_ne_nil (op : Op) (e : Coeff κ) : operands op e ≠ [] := by
  induction e using operands_induction op with
  | single e he => simp [he]
  | bin a b iha _ => simp [iha]

abbrev terms (e : Coeff κ) : List (Coeff κ) :=
  operands .add e

abbrev factors (e : Coeff κ) : List (Coeff κ) :=
  operands .mul e

/-- The place of a node's kind among operands; literals come first so that they lead a product. -/
def rank : Coeff κ → Nat
  | lit _ => 0
  | var _ => 1
  | pow _ _ => 2
  | app _ _ => 3
  | div _ _ => 4
  | mul _ _ => 5
  | add _ _ => 6
  | sub _ _ => 7
  | neg _ => 8
  | raw _ => 9

section Literals

variable [RealScalar ρ] [Scalar κ ρ]

def ofReal (x : ρ) : Coeff κ :=
  lit (Scalar.ofReal x)

def isLiteral (e : Coeff κ) (z : κ) : Bool :=
  e.literal? == some z

/-- The sign of an operation between its operands. -/
def Op.sign : Op → String
  | .add => "+"
  | .sub => "-"
  | .mul => "*"
  | .div => "/"
  | .pow => "**"

/--
The text of a coefficient. Every operation stands in parentheses; a negated literal has a pair of
its own, since `(-2)` is the literal minus two.
-/
def text : Coeff κ → String
  | lit z => Scalar.text z
  | var name => name
  | raw text => text
  | neg (lit z) => s!"(-({Scalar.text z}))"
  | neg e => s!"(-{e.text})"
  | bin op a b => s!"({a.text} {op.sign} {b.text})"
  | app f e => s!"{f.name}({e.text})"

end Literals

end Coeff

end SpinBoson
