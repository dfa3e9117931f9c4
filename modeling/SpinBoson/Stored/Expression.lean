import SpinBoson.Scalar.Complex
import SpinBoson.Stored.Basic

/-! The stored form of coefficients and operators. -/
namespace SpinBoson

instance : Stored Double where
  toJson x := .float x.toFloat
  ofJson? j := (Stored.ofJson? j).map Double.ofFloat

/-- The name of a function as an alternative. -/
def Func.storedName (f : Func) : String :=
  f.name.capitalize

def Func.ofStoredName? (name : String) : Option Func :=
  all.find? (·.storedName = name)

namespace Coeff

def Op.storedName : Op → String
  | .add => "Add"
  | .sub => "Sub"
  | .mul => "Mul"
  | .div => "Div"
  | .pow => "Pow"

def Op.ofStoredName? (name : String) : Option Op :=
  [Op.add, .sub, .mul, .div, .pow].find? (·.storedName = name)

def toJson : Coeff ComplexDouble → Json
  | lit z => .obj [("Num", .arr [Stored.toJson z.re, Stored.toJson z.im])]
  | var name => .obj [("Var", .str name)]
  | raw text => .obj [("Raw", .str text)]
  | neg e => .obj [("Neg", e.toJson)]
  | bin op a b => .obj [(op.storedName, .arr [a.toJson, b.toJson])]
  | app f e => .obj [("Func", .arr [.str f.storedName, e.toJson])]

def ofJson? : Json → Option (Coeff ComplexDouble)
  | .obj [(name, j)] =>
    match name, j with
    | "Num", .arr [x, y] => return lit ⟨← Stored.ofJson? x, ← Stored.ofJson? y⟩
    | "Var", .str name => some (var name)
    | "Raw", .str text => some (raw text)
    | "Neg", e => return neg (← ofJson? e)
    | "Func", .arr [f, e] => do
      let f ← f.alternative?.bind Func.ofStoredName?
      return app f (← ofJson? e)
    | name, .arr [a, b] => do
      let op ← Op.ofStoredName? name
      return bin op (← ofJson? a) (← ofJson? b)
    | _, _ => none
  | _ => none

instance : Stored (Coeff ComplexDouble) := ⟨toJson, ofJson?⟩

end Coeff

def Spin.storedName : Spin → String
  | pauli p => "Pauli" ++ p.name
  | raising => "PauliPlus"
  | lowering => "PauliMinus"

def Ladder.storedName : Ladder → String
  | creation => "Creation"
  | identity => "Identity"
  | annihilation => "Annihilation"

namespace Operator

def Op.storedName : Op → String
  | .add => "Add"
  | .sub => "Sub"
  | .mul => "Mul"
  | .kron => "Kron"

def Op.ofStoredName? (name : String) : Option Op :=
  [Op.add, .sub, .mul, .kron].find? (·.storedName = name)

def spins : List Spin :=
  [.pauli .i, .pauli .x, .pauli .y, .pauli .z, .raising, .lowering]

def ladders : List Ladder :=
  [.creation, .identity, .annihilation]

/-- The elementary operator of a name. -/
def ofStoredName? {κ : Type} (name : String) : Option (Operator κ) :=
  match spins.find? (·.storedName = name), ladders.find? (·.storedName = name) with
  | some s, _ => some (spin s)
  | none, some l => some (mode l)
  | none, none => none

def toJson : Operator ComplexDouble → Json
  | spin s => .str s.storedName
  | mode l => .str l.storedName
  | bin op a b => .obj [(op.storedName, .arr [a.toJson, b.toJson])]
  | scale c a => .obj [("Scale", .arr [c.toJson, a.toJson])]

def ofJson? : Json → Option (Operator ComplexDouble)
  | .str name => ofStoredName? name
  | .obj [(name, j)] =>
    match name, j with
    | name, .null => ofStoredName? name
    | "Scale", .arr [c, a] => return scale (← Coeff.ofJson? c) (← ofJson? a)
    | name, .arr [a, b] => do
      let op ← Op.ofStoredName? name
      return bin op (← ofJson? a) (← ofJson? b)
    | _, _ => none
  | _ => none

instance : Stored (Operator ComplexDouble) := ⟨toJson, ofJson?⟩

end Operator

end SpinBoson
