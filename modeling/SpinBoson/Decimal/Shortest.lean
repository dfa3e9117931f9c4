import SpinBoson.Decimal.Basic

/-!
Doubles as exact binary fractions, and the shortest decimal that reads back as a given double.
-/
namespace SpinBoson

/-- The magnitude `mantissa * 2 ^ exponent` of a finite double. -/
structure BinaryFraction where
  mantissa : Nat
  exponent : Int
  /-- The double below is only half as far away as the one above. -/
  narrowBelow : Bool
deriving DecidableEq

/-- Which of two equally near decimals is taken. -/
inductive Tie where
  | up
  | even
deriving DecidableEq

namespace BinaryFraction

/-- The magnitude of a double that is neither infinite nor a NaN. -/
def ofFloat (x : Float) : BinaryFraction :=
  let exponent := ((x.toBits >>> 52) &&& 0x7ff).toNat
  let fraction := (x.toBits &&& 0xfffffffffffff).toNat
  if exponent = 0 then ⟨fraction, -1074, false⟩
  else ⟨Nat.pow 2 52 + fraction, (exponent : Int) - 1075, fraction = 0 ∧ 1 < exponent⟩

/-- Whether the magnitude is a whole number. -/
def isWhole (x : BinaryFraction) : Bool :=
  0 ≤ x.exponent ∨ x.mantissa % Nat.pow 2 x.exponent.natAbs = 0

/-- The whole part of the magnitude. -/
def floor (x : BinaryFraction) : Nat :=
  if 0 ≤ x.exponent then x.mantissa * Nat.pow 2 x.exponent.natAbs
  else x.mantissa / Nat.pow 2 x.exponent.natAbs

/-- The exponent of the leading decimal digit of a nonzero magnitude. -/
def leadingExponent (x : BinaryFraction) : Int :=
  if x.floor = 0 then
    let inverse := (Nat.pow 2 x.exponent.natAbs + x.mantissa - 1) / x.mantissa
    Int.negOfNat (Decimal.width (inverse - 1))
  else (Decimal.width x.floor : Int) - 1

/--
The magnitude as a quotient in units of `10 ^ unit`: the factor of the mantissa, and the divisor.
-/
def quotient (x : BinaryFraction) (unit : Int) : Nat × Nat :=
  (Nat.pow 2 x.exponent.toNat * Nat.pow 10 (-unit).toNat,
    Nat.pow 2 (-x.exponent).toNat * Nat.pow 10 unit.toNat)

/--
Whether `n * 10 ^ unit` lies among the reals that round to the magnitude. The ends of that interval
belong to it when the mantissa is even.
-/
def readsBack (x : BinaryFraction) (unit : Int) (n : Nat) : Bool :=
  let (factor, divisor) := x.quotient unit
  let low := (if x.narrowBelow then 4 * x.mantissa - 1 else 4 * x.mantissa - 2) * factor
  let high := (4 * x.mantissa + 2) * factor
  let value := 4 * n * divisor
  if x.mantissa % 2 = 0 then decide (low ≤ value ∧ value ≤ high)
  else decide (low < value ∧ value < high)

/-- The decimal nearest to the magnitude in units of `10 ^ unit`, if it reads back. -/
def nearest? (tie : Tie) (x : BinaryFraction) (unit : Int) : Option Decimal :=
  let (factor, divisor) := x.quotient unit
  let below := x.mantissa * factor / divisor
  let rest := x.mantissa * factor % divisor
  let takeAbove :=
    if 2 * rest = divisor then tie = .up ∨ below % 2 = 1 else divisor < 2 * rest
  let (first, second) := if takeAbove then (below + 1, below) else (below, below + 1)
  if x.readsBack unit first then some ⟨first, unit⟩
  else if x.readsBack unit second then some ⟨second, unit⟩
  else none

/-- The decimal with the fewest digits that reads back, the nearest of those to the magnitude. -/
def shortest (tie : Tie) (x : BinaryFraction) : Decimal :=
  if x.mantissa = 0 then ⟨0, 0⟩
  else
    let units := (List.range 17).map fun n : Nat => x.leadingExponent - n
    ((units.findSome? (nearest? tie x)).getD ⟨0, 0⟩).trim

end BinaryFraction

/-- Whether the sign bit is set; so it is for a negative zero. -/
def signBit (x : Float) : Bool :=
  x.toBits >>> 63 = 1

/-- Whether a double is finite and has no fraction. -/
def isWhole (x : Float) : Bool :=
  x.isFinite && (BinaryFraction.ofFloat x).isWhole

/--
The text of a double: the fewest digits that read back, never an exponent, and a point only before
a fraction. Of two equally near decimals the upper is written. The sign of a zero is kept, that of
a NaN is not.
-/
def floatText (x : Float) : String :=
  if x.isNaN then "NaN"
  else
    let magnitude :=
      if x.isInf then "inf" else ((BinaryFraction.ofFloat x).shortest .up).positional
    if signBit x then "-" ++ magnitude else magnitude

end SpinBoson
