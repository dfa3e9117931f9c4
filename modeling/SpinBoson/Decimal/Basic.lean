/-! Decimal numerals: what a numeral denotes, the double nearest to it, and its positional text. -/
namespace SpinBoson

/-- The number `digits * 10 ^ exponent`. -/
structure Decimal where
  digits : Nat
  exponent : Int
deriving DecidableEq, Inhabited

namespace Decimal

/-- How many digits `n` has in base ten; zero has one. -/
def width (n : Nat) : Nat :=
  (Nat.toDigits 10 n).length

def ofNat (n : Nat) : Decimal :=
  ⟨n, 0⟩

/--
The double nearest to a decimal, ties to the even neighbour. A decimal whose leading digit lies far
outside the range of doubles is settled by its size alone, so that the exponent may be of any size.
-/
def toFloat (d : Decimal) : Float :=
  let top := (width d.digits : Int) + d.exponent
  if d.digits = 0 then 0
  else if 400 < top then 1 / 0
  else if top < -400 then 0
  else if d.exponent < 0 then Float.ofScientific d.digits true d.exponent.natAbs
  else Float.ofScientific d.digits false d.exponent.natAbs

/-- The same number without trailing zeros among its digits. -/
def trim (d : Decimal) : Decimal :=
  go (width d.digits) d
where
  go : Nat → Decimal → Decimal
    | 0, d => d
    | n + 1, d =>
      if d.digits % 10 = 0 ∧ d.digits ≠ 0 then go n ⟨d.digits / 10, d.exponent + 1⟩ else d

/-- The numeral written out without an exponent; there is a point only before a fraction. -/
def positional (d : Decimal) : String :=
  let digits := Nat.toDigits 10 d.digits
  let scale := d.exponent.natAbs
  if 0 ≤ d.exponent then
    String.ofList (if d.digits = 0 then digits else digits ++ List.replicate scale '0')
  else if scale < digits.length then
    let whole := digits.length - scale
    String.ofList (digits.take whole ++ '.' :: digits.drop whole)
  else
    String.ofList ('0' :: '.' :: (List.replicate (scale - digits.length) '0' ++ digits))

end Decimal

end SpinBoson
