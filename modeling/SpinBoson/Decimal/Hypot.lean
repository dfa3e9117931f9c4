import SpinBoson.Decimal.Shortest

/-! The length of a plane vector, rounded once. -/
namespace SpinBoson

/-- The largest number whose square is at most `n`, found bit by bit from the given bit down. -/
def squareRoot (n : Nat) : Nat :=
  go (n.log2 / 2 + 1) 0
where
  go : Nat → Nat → Nat
    | 0, root => root
    | bit + 1, root =>
      let next := root + Nat.pow 2 bit
      go bit (if next * next ≤ n then next else root)

/-- The double nearest to `mantissa * 2 ^ exponent`. -/
def ofDyadic (mantissa : Nat) (exponent : Int) : Float :=
  if 0 ≤ exponent then (Decimal.ofNat (mantissa * Nat.pow 2 exponent.natAbs)).toFloat
  else (Decimal.mk (mantissa * Nat.pow 5 exponent.natAbs) exponent).toFloat

/--
The square root of `x ^ 2 + y ^ 2` for finite `x` and `y`. The sum of squares is exact; about sixty
bits of its root and one more that tells whether the root ends there are rounded to a double.
-/
def finiteHypot (x y : Float) : Float :=
  let a := BinaryFraction.ofFloat x
  let b := BinaryFraction.ofFloat y
  let unit := min a.exponent b.exponent
  let p := a.mantissa * Nat.pow 2 (a.exponent - unit).toNat
  let q := b.mantissa * Nat.pow 2 (b.exponent - unit).toNat
  let square := p * p + q * q
  let shift : Int := (square.log2 / 2 : Nat) - 60
  let divisor := Nat.pow 4 shift.toNat
  let scaled := square * Nat.pow 4 (-shift).toNat / divisor
  let root := squareRoot scaled
  let tail := if root * root * divisor = square * Nat.pow 4 (-shift).toNat then 0 else 1
  ofDyadic (2 * root + tail) (unit + shift - 1)

/-- On an axis the length is exact; an infinite part makes it infinite even beside a NaN. -/
def hypot (x y : Float) : Float :=
  if x.isInf || y.isInf then 1 / 0
  else if x.isNaN || y.isNaN then 0 / 0
  else if y == 0 then x.abs
  else if x == 0 then y.abs
  else finiteHypot x y

end SpinBoson
