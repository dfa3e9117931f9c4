import SpinBoson.Walk.Rule

/-! Walks over JSON values: items in order, and fields in the order in which they stand. -/
namespace SpinBoson.Json

variable {κ : Type} {m : Type → Type} [Monad m]

mutual

def height : Json → Nat
  | arr items => heightItems items + 1
  | obj fields => heightFields fields + 1
  | _ => 1

def heightItems : List Json → Nat
  | [] => 0
  | j :: rest => max (height j) (heightItems rest)

def heightFields : List (String × Json) → Nat
  | [] => 0
  | (_, j) :: rest => max (height j) (heightFields rest)

end

/-- Replaces the values inside a container. -/
def mapInner (f : Json → m Json) : Json → m Json
  | arr items => return arr (← items.mapM f)
  | obj fields => return obj (← fields.mapM fun (name, j) => return (name, ← f j))
  | j => pure j

mutual

def up (r : Rule κ m) : Json → m Json
  | arr items => do r.json (arr (← upItems r items))
  | obj fields => do r.json (obj (← upFields r fields))
  | null => r.json null
  | bool b => r.json (bool b)
  | int n => r.json (int n)
  | float x => r.json (float x)
  | str s => r.json (str s)

def upItems (r : Rule κ m) : List Json → m (List Json)
  | [] => pure []
  | j :: rest => return (← up r j) :: (← upItems r rest)

def upFields (r : Rule κ m) : List (String × Json) → m (List (String × Json))
  | [] => pure []
  | (name, j) :: rest => return (name, ← up r j) :: (← upFields r rest)

end

def down (r : Rule κ m) : Nat → Json → m Json
  | 0, j => pure j
  | n + 1, j => do (← r.json j).mapInner (down r n)

def atDepth (r : Rule κ m) : Nat → Json → m Json
  | 0, j => r.json j
  | d + 1, j => j.mapInner (atDepth r d)

instance : Walkable κ Json := ⟨height, up, fun r _ => down r, atDepth⟩

end SpinBoson.Json
