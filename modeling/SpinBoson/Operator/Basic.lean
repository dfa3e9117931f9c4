import SpinBoson.Coeff.Basic
import SpinBoson.Subsystem

/-! Operators over qubits and bosonic modes, as expressions. -/
namespace SpinBoson

/-- The Hermitian operators of a qubit, in canonical order. -/
inductive Pauli where
  | i | x | y | z
deriving DecidableEq, Inhabited

/-- The elementary operators of a qubit. -/
inductive Spin where
  | pauli (p : Pauli)
  | raising
  | lowering
deriving DecidableEq, Inhabited

/-- The elementary operators of a mode, in normal order. -/
inductive Ladder where
  | creation | identity | annihilation
deriving DecidableEq, Inhabited

/-- The operations on two operators: sum, difference, composition and tensor product. -/
inductive Operator.Op where
  | add | sub | mul | kron
deriving DecidableEq, Inhabited

inductive Operator (κ : Type) where
  | spin (s : Spin)
  | mode (l : Ladder)
  | bin (op : Operator.Op) (a b : Operator κ)
  | scale (c : Coeff κ) (a : Operator κ)
deriving BEq, Inhabited

def Pauli.rank : Pauli → Nat
  | i => 0
  | x => 1
  | y => 2
  | z => 3

theorem Pauli.rank_injective {p q : Pauli} (h : p.rank = q.rank) : p = q := by
  cases p <;> cases q <;> simp_all [rank]

def Pauli.name : Pauli → String
  | i => "I"
  | x => "X"
  | y => "Y"
  | z => "Z"

def Spin.name : Spin → String
  | pauli p => p.name
  | raising => "S+"
  | lowering => "S-"

def Ladder.rank : Ladder → Nat
  | creation => 0
  | identity => 1
  | annihilation => 2

theorem Ladder.rank_injective {l r : Ladder} (h : l.rank = r.rank) : l = r := by
  cases l <;> cases r <;> simp_all [rank]

def Ladder.name : Ladder → String
  | creation => "C"
  | identity => "Id"
  | annihilation => "A"

namespace Operator

variable {κ ρ : Type}

@[match_pattern]
abbrev pauli (p : Pauli) : Operator κ := spin (.pauli p)

@[match_pattern]
abbrev add (a b : Operator κ) : Operator κ := bin .add a b

@[match_pattern]
abbrev sub (a b : Operator κ) : Operator κ := bin .sub a b

@[match_pattern]
abbrev mul (a b : Operator κ) : Operator κ := bin .mul a b

@[match_pattern]
abbrev kron (a b : Operator κ) : Operator κ := bin .kron a b

/-- The subsystem of an elementary operator. -/
def subsystem? : Operator κ → Option Subsystem
  | spin _ => some .qubit
  | mode _ => some .mode
  | _ => none

def isElementary (a : Operator κ) : Bool :=
  a.subsystem?.isSome

def pauli? : Operator κ → Option Pauli
  | pauli p => some p
  | _ => none

def ladder? : Operator κ → Option Ladder
  | mode l => some l
  | _ => none

/-- The number of nodes, those of coefficients apart. -/
def size : Operator κ → Nat
  | spin _ | mode _ => 1
  | bin _ a b => 1 + a.size + b.size
  | scale _ a => 1 + a.size

/-- The number of levels of the tree, those of coefficients included. -/
def height : Operator κ → Nat
  | spin _ | mode _ => 1
  | bin _ a b => max a.height b.height + 1
  | scale c a => max c.height a.height + 1

/-- The operands of a chain of `op`, left to right, in front of `rest`. -/
def operandsBefore (op : Op) : Operator κ → List (Operator κ) → List (Operator κ)
  | bin op' a b, rest =>
    if op' = op then operandsBefore op a (operandsBefore op b rest) else bin op' a b :: rest
  | a, rest => a :: rest

/-- The operands of a chain of `op`, however it is associated; any other node is its own operand. -/
def operands (op : Op) (a : Operator κ) : List (Operator κ) :=
  operandsBefore op a []

theorem operandsBefore_eq (op : Op) (a : Operator κ) (rest : List (Operator κ)) :
    operandsBefore op a rest = operands op a ++ rest := by
  unfold operands
  induction a generalizing rest with
  | bin op' a b iha ihb =>
    by_cases h : op' = op
    · simp only [operandsBefore, h, if_true]
      rw [iha, ihb, iha (operandsBefore op b []), List.append_assoc]
    · simp [operandsBefore, h]
  | _ => simp [operandsBefore]

@[simp]
theorem operands_bin_self (op : Op) (a b : Operator κ) :
    operands op (bin op a b) = operands op a ++ operands op b := by
  simp [operands, operandsBefore, operandsBefore_eq op a (operandsBefore op b [])]

@[simp]
theorem operands_bin_of_ne {op op' : Op} (h : op' ≠ op) (a b : Operator κ) :
    operands op (bin op' a b) = [bin op' a b] := by
  simp [operands, operandsBefore, h]

/-- Induction along a chain of `op`, in which any other node is its own operand. -/
@[elab_as_elim]
theorem operands_induction (op : Op) {motive : Operator κ → Prop}
    (single : ∀ a, operands op a = [a] → motive a)
    (bin : ∀ a b, motive a → motive b → motive (bin op a b)) (a : Operator κ) : motive a := by
  induction a with
  | bin op' a b iha ihb =>
    by_cases h : op' = op
    · subst h
      exact bin a b iha ihb
    · exact single _ (operands_bin_of_ne h a b)
  | spin | mode | scale => exact single _ rfl

theorem operands_ne_nil (op : Op) (a : Operator κ) : operands op a ≠ [] := by
  induction a using operands_induction op with
  | single a ha => simp [ha]
  | bin a b iha _ => simp [iha]

abbrev terms (a : Operator κ) : List (Operator κ) :=
  operands .add a

abbrev mulFactors (a : Operator κ) : List (Operator κ) :=
  operands .mul a

abbrev kronFactors (a : Operator κ) : List (Operator κ) :=
  operands .kron a

/-- The left-nested tensor product of some factors. -/
def kronChain? (factors : List (Operator κ)) : Option (Operator κ) :=
  leftNested? kron factors

/-- The left-nested sum of some terms. -/
def sum? (terms : List (Operator κ)) : Option (Operator κ) :=
  leftNested? add terms

def Op.sign : Op → String
  | .add => "+"
  | .sub => "-"
  | .mul => "*"
  | .kron => "@"

def text [RealScalar ρ] [Scalar κ ρ] : Operator κ → String
  | spin s => s.name
  | mode l => l.name
  | bin op a b => s!"({a.text} {op.sign} {b.text})"
  | scale c a => s!"[{c.text}] {a.text}"

end Operator

end SpinBoson
