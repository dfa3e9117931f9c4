import SpinBoson.Decimal.Numeral
import SpinBoson.Json.Basic

/-!
Numbers in JSON text. One with a fraction or an exponent is made of the leading digits that 64 bits
hold and scaled by a power of ten in double precision, so that it may miss the nearest double by the
last bits.
-/
namespace SpinBoson.Json

/-- The parts of a number's text: its sign, the digits before and after the point, the exponent. -/
structure Numeral where
  negative : Bool
  whole : List Char
  fraction : List Char
  exponent? : Option Int
deriving DecidableEq

/-- A whole number as far as 64 bits hold it; minus zero is a floating-point number. -/
def ofInteger (negative : Bool) (n : Nat) : Json :=
  if negative then
    if n = 0 ∨ Nat.pow 2 63 < n then float (-(Decimal.ofNat n).toFloat) else int (-n)
  else if n < Nat.pow 2 64 then int n
  else float (Decimal.ofNat n).toFloat

namespace Numeral

/-- The numeral at the front of a text without its sign, and how many characters it has. -/
def read? (negative : Bool) (cs : List Char) : Option (Numeral × Nat) :=
  let whole := if cs.head? = some '0' then ['0'] else cs.takeWhile Char.isDigit
  let rest := cs.drop whole.length
  let fraction := if rest.head? = some '.' then rest.tail.takeWhile Char.isDigit else []
  let places := if fraction = [] then 0 else fraction.length + 1
  if whole = [] then none
  else
    match Decimal.exponent? (rest.drop places) with
    | some (exponent, length) =>
      some (⟨negative, whole, fraction, some exponent⟩, whole.length + places + length)
    | none => some (⟨negative, whole, fraction, none⟩, whole.length + places)

/-- Appends digits to a number as long as 64 bits hold it, and counts those left over. -/
def extend (n : Nat) : List Char → Nat × Nat
  | [] => (n, 0)
  | c :: digits =>
    let next := 10 * n + (c.toNat - '0'.toNat)
    if next < Nat.pow 2 64 then extend next digits else (n, digits.length + 1)

/-- The leading digits, scaled. Whole digits left over count as zeros, others as absent. -/
def leading (t : Numeral) : Decimal :=
  let (n, zeros) := extend 0 t.whole
  let (n, absent) := extend n t.fraction
  ⟨n, zeros + absent - t.fraction.length + t.exponent?.getD 0⟩

/-- The exponent of the largest power of ten among doubles. -/
def maxPower : Nat := 308

/--
A number times a power of ten, if that is finite. A quotient by a power that no double holds takes
several steps.
-/
def scaled? (x : Float) (exponent : Int) : Option Float :=
  let power := (Decimal.mk 1 (min exponent.natAbs maxPower)).toFloat
  if exponent.natAbs ≤ maxPower then
    let y := if 0 ≤ exponent then x * power else x / power
    if y.isFinite then some y else none
  else if x == 0 then some 0
  else if 0 ≤ exponent then none
  else scaled? (x / power) (exponent + maxPower)
termination_by exponent.natAbs
decreasing_by simp only [maxPower] at *; omega

/-- The number in a stored text; one too large for a double is unreadable. -/
def value (t : Numeral) : Json :=
  let d := t.leading
  if t.fraction = [] ∧ t.exponent? = none ∧ d.exponent = 0 then ofInteger t.negative d.digits
  else
    match scaled? (Decimal.ofNat d.digits).toFloat d.exponent with
    | some x => float (if t.negative then -x else x)
    | none => unreadable

end Numeral

end SpinBoson.Json
