import SpinBoson.Named

/-! JSON values. Whole numbers and floating-point numbers are different values. -/
namespace SpinBoson

inductive Json where
  | null
  | bool (b : Bool)
  | int (n : Int)
  | float (x : Float)
  | str (s : String)
  | arr (items : List Json)
  | obj (fields : List (String × Json))
deriving Inhabited

namespace Json

mutual

/-- Equality of values; floating-point numbers compare as numbers. -/
def beq : Json → Json → Bool
  | null, null => true
  | bool a, bool b => a == b
  | int a, int b => a == b
  | float a, float b => a == b
  | str a, str b => a == b
  | arr a, arr b => beqItems a b
  | obj a, obj b => beqFields a b
  | _, _ => false

def beqItems : List Json → List Json → Bool
  | [], [] => true
  | a :: as, b :: bs => beq a b && beqItems as bs
  | _, _ => false

def beqFields : List (String × Json) → List (String × Json) → Bool
  | [], [] => true
  | (k, a) :: as, (l, b) :: bs => k == l && beq a b && beqFields as bs
  | _, _ => false

end

instance : BEq Json := ⟨beq⟩

mutual

/-- The value with the fields of every object in order, the last of one name kept. -/
def sorted : Json → Json
  | arr items => arr (sortedItems items)
  | obj fields => obj (Named.ofList (sortedFields fields))
  | j => j

def sortedItems : List Json → List Json
  | [] => []
  | j :: rest => sorted j :: sortedItems rest

def sortedFields : List (String × Json) → List (String × Json)
  | [] => []
  | (name, j) :: rest => (name, sorted j) :: sortedFields rest

end

/--
Stands for a part of a text that no value can hold, such as a number beyond all doubles. It is
infinite, and so refused by whatever reads a stored value, but may stand where nothing is read.
-/
def unreadable : Json :=
  float (1 / 0)

mutual

/-- The value without the containers that have `depth` others around them, which are unreadable. -/
def within (depth : Nat) : Json → Json
  | arr items =>
    match depth with
    | 0 => unreadable
    | depth + 1 => arr (withinItems depth items)
  | obj fields =>
    match depth with
    | 0 => unreadable
    | depth + 1 => obj (withinFields depth fields)
  | j => j

def withinItems (depth : Nat) : List Json → List Json
  | [] => []
  | j :: rest => within depth j :: withinItems depth rest

def withinFields (depth : Nat) : List (String × Json) → List (String × Json)
  | [] => []
  | (name, j) :: rest => (name, within depth j) :: withinFields depth rest

end

mutual

/-- Whether no number in the value is infinite, so that nothing in it is unreadable. -/
def isFinite : Json → Bool
  | float x => x.isFinite
  | arr items => isFiniteItems items
  | obj fields => isFiniteFields fields
  | _ => true

def isFiniteItems : List Json → Bool
  | [] => true
  | j :: rest => isFinite j && isFiniteItems rest

def isFiniteFields : List (String × Json) → Bool
  | [] => true
  | (_, j) :: rest => isFinite j && isFiniteFields rest

end

/-- The value of the first field of a name. -/
def field? (j : Json) (name : String) : Option Json :=
  match j with
  | obj fields => fields.lookup name
  | _ => none

end Json

end SpinBoson
