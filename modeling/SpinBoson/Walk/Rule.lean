import SpinBoson.Circuit.Basic
import SpinBoson.Error
import SpinBoson.Json.Basic

/-!
Rules that put new nodes in the places of old ones, and the values that can be walked with a rule.
A rule acts in a monad of its own, so it may fail or remember.
-/
namespace SpinBoson

/-- What happens at a node of each kind; a node that the rule leaves alone is returned. -/
structure Rule (κ : Type) (m : Type → Type) where
  name : String
  coeff : Coeff κ → m (Coeff κ)
  operator : Operator κ → m (Operator κ)
  gate : Gate κ → m (Gate κ)
  statement : Statement κ → m (Statement κ)
  circuit : Circuit κ → m (Circuit κ)
  json : Json → m Json
  /-- Whether a walk from the root down goes on below an operator. -/
  descends : Operator κ → Bool

/-- A run that may fail, and that keeps what it has noted also then. -/
abbrev Noting (σ : Type) := ExceptT Error (StateM σ)

namespace Rule

variable {κ : Type} {m : Type → Type} [Monad m]

/-- The rule that changes nothing. -/
def idle (name : String) : Rule κ m where
  name := name
  coeff := pure
  operator := pure
  gate := pure
  statement := pure
  circuit := pure
  json := pure
  descends := fun _ => true

/-- Acts on coefficients and leaves all else alone. -/
def ofCoeff (name : String) (f : Coeff κ → m (Coeff κ)) : Rule κ m :=
  { idle name with coeff := f }

/-- Acts on operators and leaves all else alone. -/
def ofOperator (name : String) (f : Operator κ → m (Operator κ)) : Rule κ m :=
  { idle name with operator := f }

/-- The outcome of a check that may have found something wrong with a value. -/
def verdict {α : Type} (name : String) (a : α) : Option Violation → Except Error α
  | none => .ok a
  | some v => .error (.verificationFailed name v)

/-- Checks operators; the value stays as it is. -/
def ofCheck (name : String) (violation? : Operator κ → Option Violation) :
    Rule κ (Except Error) :=
  ofOperator name fun a => verdict name a (violation? a)

/-- Keeps a walk from the root down out of the operators that a test refuses. -/
def descending (r : Rule κ m) (descends : Operator κ → Bool) : Rule κ m :=
  { r with descends := descends }

end Rule

/-- When a walk from the root down visits a node with two operands. -/
inductive Turn where
  | first
  /-- Between its left operand and its right one. -/
  | afterLeft
  | afterRight
deriving DecidableEq

/-- Values that rules over the scalars `κ` can walk. -/
class Walkable (κ : Type) (α : Type) where
  /-- The number of levels. -/
  height : α → Nat
  /-- Visits every node after those below it. -/
  up {m : Type → Type} [Monad m] : Rule κ m → α → m α
  /-- Visits at most so many levels, from the root down. -/
  down {m : Type → Type} [Monad m] : Rule κ m → Turn → Nat → α → m α
  /-- Visits the nodes of one level. -/
  atDepth {m : Type → Type} [Monad m] : Rule κ m → Nat → α → m α

/-- The order of visits. -/
inductive Strategy where
  | post
  | pre
  | inOrder (reverse : Bool)
  | level
deriving DecidableEq

/--
How many levels a walk may go beyond those of the value it started on, when a rule keeps putting
new nodes below the one it visits.
-/
def growth : Nat :=
  Nat.pow 2 32

variable {κ α : Type} {m : Type → Type} [Monad m] [Walkable κ α]

/-- Visits one level after the other while there is one, counting from a depth. -/
def walkLevels (r : Rule κ m) : Nat → Nat → α → m α
  | 0, _, a => pure a
  | n + 1, depth, a =>
    if depth < Walkable.height κ a then do
      walkLevels r n (depth + 1) (← Walkable.atDepth r depth a)
    else pure a

/-- Visits the nodes of a value, left to right, and puts what the rule returns in their places. -/
def walk (s : Strategy) (r : Rule κ m) (a : α) : m α :=
  let levels := Walkable.height κ a + growth
  match s with
  | .post => Walkable.up r a
  | .pre => Walkable.down r .first levels a
  | .inOrder false => Walkable.down r .afterLeft levels a
  | .inOrder true => Walkable.down r .afterRight levels a
  | .level => walkLevels r levels 0 a

end SpinBoson
