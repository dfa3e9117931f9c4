import SpinBoson.Decimal.Shortest
import SpinBoson.Json.Basic

/-! Compact JSON text. -/
namespace SpinBoson

/-- The text of a decimal with at least one place, or with a signed exponent when it is long. -/
def Decimal.jsonText (d : Decimal) : String :=
  let digits := Nat.toDigits 10 d.digits
  let point := (digits.length : Int) + d.exponent
  if 0 ≤ d.exponent ∧ point ≤ 16 then d.positional ++ ".0"
  else if -5 < point ∧ point ≤ 16 then d.positional
  else
    let mantissa := match digits with
      | c :: rest => if rest = [] then [c] else c :: '.' :: rest
      | [] => []
    String.ofList mantissa ++ (if 0 < point then "e+" else "e") ++ toString (point - 1)

namespace Json

/-- The shortest decimal that reads back, an even one of two equally near; JSON has no text for
infinities and NaNs, so they are null. -/
def floatText (x : Float) : String :=
  if x.isFinite then
    let magnitude := ((BinaryFraction.ofFloat x).shortest .even).jsonText
    if signBit x then "-" ++ magnitude else magnitude
  else "null"

/-- A character inside a quoted string. -/
def escape (c : Char) : List Char :=
  match c with
  | '"' => ['\\', '"']
  | '\\' => ['\\', '\\']
  | '\n' => ['\\', 'n']
  | '\t' => ['\\', 't']
  | '\r' => ['\\', 'r']
  | '\x08' => ['\\', 'b']
  | '\x0c' => ['\\', 'f']
  | c =>
    if c.toNat < 32 then
      ['\\', 'u', '0', '0', Nat.digitChar (c.toNat / 16), Nat.digitChar (c.toNat % 16)]
    else [c]

def quote (s : String) : String :=
  String.ofList ('"' :: (s.toList.flatMap escape ++ ['"']))

mutual

def text : Json → String
  | null => "null"
  | bool b => if b then "true" else "false"
  | int n => toString n
  | float x => floatText x
  | str s => quote s
  | arr items => "[" ++ ",".intercalate (itemTexts items) ++ "]"
  | obj fields => "\x7b" ++ ",".intercalate (fieldTexts fields) ++ "\x7d"

def itemTexts : List Json → List String
  | [] => []
  | j :: rest => text j :: itemTexts rest

def fieldTexts : List (String × Json) → List String
  | [] => []
  | (name, j) :: rest => (quote name ++ ":" ++ text j) :: fieldTexts rest

end

end Json

end SpinBoson
