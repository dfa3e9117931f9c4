import SpinBoson.Json.Number

/-!
Reading JSON text: first into tokens, then with a stack of the containers that are still open.
Fields keep the order of the text, and a name may occur twice. What has the form of a string but
denotes none is read all the same: it is an error only where the string is asked for.
-/
namespace SpinBoson.Json

inductive Token where
  | openArr | closeArr | openObj | closeObj | comma | colon
  /-- A string, unless half of a surrogate pair stands alone in it. -/
  | text (s? : Option String)
  /-- Any other value that is no container. -/
  | scalar (j : Json)

def hexDigit? (c : Char) : Option Nat :=
  if c.isDigit then some (c.toNat - '0'.toNat)
  else if 'a' ≤ c ∧ c ≤ 'f' then some (c.toNat - 'a'.toNat + 10)
  else if 'A' ≤ c ∧ c ≤ 'F' then some (c.toNat - 'A'.toNat + 10)
  else none

/-- The code of a character that a backslash stands before. -/
def escaped? (c : Char) : Option Nat :=
  match c with
  | '"' | '\\' | '/' => some c.toNat
  | 'b' => some 8
  | 'f' => some 12
  | 'n' => some 10
  | 'r' => some 13
  | 't' => some 9
  | _ => none

/-- The codes of a string up to its closing quote, and how many characters that takes. -/
def stringCodes : List Char → Option (List Nat × Nat)
  | '"' :: _ => some ([], 1)
  | '\\' :: 'u' :: a :: b :: c :: d :: rest => do
    let digits ← [a, b, c, d].mapM hexDigit?
    let (codes, length) ← stringCodes rest
    some (digits.foldl (16 * · + ·) 0 :: codes, length + 6)
  | '\\' :: c :: rest => do
    let code ← escaped? c
    let (codes, length) ← stringCodes rest
    some (code :: codes, length + 2)
  | c :: rest =>
    if c.toNat < 32 then none
    else do
      let (codes, length) ← stringCodes rest
      some (c.toNat :: codes, length + 1)
  | [] => none

/-- The characters of codes; a surrogate counts only as a half of a pair. -/
def charsOfCodes : List Nat → Option (List Char)
  | [] => some []
  | high :: codes =>
    if 0xd800 ≤ high ∧ high < 0xdc00 then
      match codes with
      | low :: codes =>
        if 0xdc00 ≤ low ∧ low < 0xe000 then
          (charsOfCodes codes).map
            (Char.ofNat (0x10000 + (high - 0xd800) * 0x400 + (low - 0xdc00)) :: ·)
        else none
      | [] => none
    else if 0xdc00 ≤ high ∧ high < 0xe000 then none
    else (charsOfCodes codes).map (Char.ofNat high :: ·)

def isBlank (c : Char) : Bool :=
  c = ' ' || c = '\n' || c = '\t' || c = '\r'

/-- The token at the front of a text, and how many more characters it has. -/
def token? (number : Numeral → Json) (c : Char) (rest : List Char) : Option (Token × Nat) :=
  match c with
  | '[' => some (.openArr, 0)
  | ']' => some (.closeArr, 0)
  | '\x7b' => some (.openObj, 0)
  | '\x7d' => some (.closeObj, 0)
  | ',' => some (.comma, 0)
  | ':' => some (.colon, 0)
  | '"' => do
    let (codes, length) ← stringCodes rest
    some (.text ((charsOfCodes codes).map String.ofList), length)
  | '-' => do
    let (t, length) ← Numeral.read? true rest
    some (.scalar (number t), length)
  | c =>
    if c.isDigit then do
      let (t, length) ← Numeral.read? false (c :: rest)
      some (.scalar (number t), length - 1)
    else if c = 'n' ∧ rest.take 3 = ['u', 'l', 'l'] then some (.scalar .null, 3)
    else if c = 't' ∧ rest.take 3 = ['r', 'u', 'e'] then some (.scalar (.bool true), 3)
    else if c = 'f' ∧ rest.take 4 = ['a', 'l', 's', 'e'] then some (.scalar (.bool false), 4)
    else none

/-- The tokens of a text. -/
def tokens? (number : Numeral → Json) : List Char → Option (List Token)
  | [] => some []
  | c :: rest =>
    if isBlank c then tokens? number rest
    else do
      let (t, length) ← token? number c rest
      return t :: (← tokens? number (rest.drop length))
termination_by cs => cs.length
decreasing_by all_goals simp; try omega

/-- Fields whose names may be no strings, the last first. -/
abbrev Fields := List (Option String × Json)

/-- An object with such a name is unreadable as a whole. -/
def ofFields (fields : Fields) : Json :=
  match fields.reverse.mapM fun (name?, j) => name?.map (·, j) with
  | some fields => obj fields
  | none => unreadable

/-- An open container with what it holds so far, the last first. -/
inductive Frame where
  | arr (items : List Json)
  | obj (fields : Fields) (name? : Option String)

/-- What may come next. -/
inductive Want where
  | value
  | valueOrClose
  /-- A name; the fields so far come last first. -/
  | name (fields : Fields)
  | nameOrClose
  | colon (fields : Fields) (name? : Option String)
  | behind (j : Json)

/-- Reads tokens into a value, with a stack of the containers that are open. -/
def assemble (stack : List Frame) : List Token → Want → Option Json
  | [], .behind j => if stack.isEmpty then some j else none
  | [], _ => none
  | t :: rest, want =>
    match want, t with
    | .value, .scalar j | .valueOrClose, .scalar j => assemble stack rest (.behind j)
    | .value, .text s? | .valueOrClose, .text s? =>
      assemble stack rest (.behind (s?.elim unreadable str))
    | .value, .openArr | .valueOrClose, .openArr => assemble (.arr [] :: stack) rest .valueOrClose
    | .value, .openObj | .valueOrClose, .openObj => assemble stack rest .nameOrClose
    | .valueOrClose, .closeArr =>
      match stack with
      | .arr items :: stack => assemble stack rest (.behind (.arr items.reverse))
      | _ => none
    | .nameOrClose, .closeObj => assemble stack rest (.behind (.obj []))
    | .nameOrClose, .text name? => assemble stack rest (.colon [] name?)
    | .name fields, .text name? => assemble stack rest (.colon fields name?)
    | .colon fields name?, .colon => assemble (.obj fields name? :: stack) rest .value
    | .behind j, .comma =>
      match stack with
      | .arr items :: stack => assemble (.arr (j :: items) :: stack) rest .value
      | .obj fields name? :: stack => assemble stack rest (.name ((name?, j) :: fields))
      | [] => none
    | .behind j, .closeArr =>
      match stack with
      | .arr items :: stack => assemble stack rest (.behind (.arr (j :: items).reverse))
      | _ => none
    | .behind j, .closeObj =>
      match stack with
      | .obj fields name? :: stack =>
        assemble stack rest (.behind (ofFields ((name?, j) :: fields)))
      | _ => none
    | _, _ => none

/-- Reads a text that holds one value; `number` says what its numerals denote. -/
def parse? (number : Numeral → Json) (text : String) : Option Json := do
  assemble [] (← tokens? number text.toList) .value

end SpinBoson.Json
