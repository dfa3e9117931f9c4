/-! Values under names, in increasing order of the names. -/
namespace SpinBoson

/-- A list of named values; `Named.insert` keeps it in order. -/
abbrev Named (α : Type) := List (String × α)

namespace Named

variable {α : Type}

/-- Adds a value; one that has the name already is replaced. -/
def insert (name : String) (a : α) : Named α → Named α
  | [] => [(name, a)]
  | (other, b) :: rest =>
    if name < other then (name, a) :: (other, b) :: rest
    else if name = other then (name, a) :: rest
    else (other, b) :: insert name a rest

/-- Of several values with one name the last is kept. -/
def ofList (entries : List (String × α)) : Named α :=
  entries.foldl (fun named (name, a) => insert name a named) []

theorem lookup_insert_self (name : String) (a : α) (named : Named α) :
    List.lookup name (insert name a named) = some a := by
  induction named with
  | nil => simp [insert]
  | cons head rest ih =>
    obtain ⟨other, b⟩ := head
    by_cases hlt : name < other
    · simp [insert, hlt]
    · by_cases heq : name = other
      · simp [insert, heq]
      · have : (name == other) = false := by simpa using heq
        simp [insert, hlt, heq, List.lookup_cons, this, ih]

end Named

end SpinBoson
