import SpinBoson.Json.Printer
import SpinBoson.Json.Reader
import SpinBoson.Walk.Container

/-!
The JSON form in which values are stored. A choice among alternatives is the name of one, or an
object with that name as its only field; a record is an object, or an array in the order of fields.
-/
namespace SpinBoson

class Stored (α : Type) where
  toJson : α → Json
  ofJson? : Json → Option α

namespace Stored

/-- The stored text of a value. -/
def text {α : Type} [Stored α] (a : α) : String :=
  (toJson a).text

/-- How many containers may stand inside each other where they are read. -/
def maxDepth : Nat := 127

/-- The value that a text stores. -/
def parse? {α : Type} [Stored α] (text : String) : Option α := do
  ofJson? ((← Json.parse? Json.Numeral.value text).within maxDepth)

instance : Stored Float where
  toJson := .float
  ofJson?
    | .int n => some (if n < 0 then -(Decimal.ofNat n.natAbs).toFloat
      else (Decimal.ofNat n.natAbs).toFloat)
    | .float x => if x.isFinite then some x else none
    | _ => none

instance : Stored Nat where
  toJson n := .int n
  ofJson?
    | .int n => if 0 ≤ n then some n.toNat else none
    | _ => none

instance : Stored String where
  toJson := .str
  ofJson?
    | .str s => some s
    | _ => none

instance {α : Type} [Stored α] : Stored (Option α) where
  toJson
    | some a => toJson a
    | none => .null
  ofJson?
    | .null => some none
    | j => (ofJson? j).map some

/-- A stored value keeps its fields in order of names. -/
instance : Stored Json where
  toJson := id
  ofJson? j := if j.isFinite then some j.sorted else none

instance {α : Type} [Stored α] : Stored (List α) where
  toJson as := .arr (as.map toJson)
  ofJson?
    | .arr items => items.mapM ofJson?
    | _ => none

/-- Of two fields with one name the last counts. -/
instance {α : Type} [Stored α] : Stored (Named α) where
  toJson as := .obj (as.map fun (name, a) => (name, toJson a))
  ofJson?
    | .obj fields => do
      return Named.ofList (← fields.mapM fun (name, j) => do return (name, ← ofJson? j))
    | _ => none

end Stored

namespace Json

/-- The name of an alternative that holds nothing. -/
def alternative? : Json → Option String
  | str name => some name
  | obj [(name, null)] => some name
  | _ => none

/--
The fields of a record, each where it is present; none may occur twice, and fields of other names
are left aside. An array may be shorter than the record only if fields have defaults.
-/
def members? (names : List String) (hasDefaults : Bool) : Json → Option (List (Option Json))
  | obj fields =>
    if names.any fun name => 1 < (fields.filter (·.1 = name)).length then none
    else some (names.map fun name => fields.lookup name)
  | arr items =>
    if names.length < items.length ∨ (!hasDefaults ∧ items.length < names.length) then none
    else some (items.map some ++ List.replicate (names.length - items.length) none)
  | _ => none

end Json

end SpinBoson
