import SpinBoson.Decimal.Basic

/-! Reading the parts of a decimal numeral from characters. -/
namespace SpinBoson.Decimal

/-- The number written by decimal digits. -/
def ofDigits (digits : List Char) : Nat :=
  digits.foldl (fun n c => 10 * n + (c.toNat - '0'.toNat)) 0

/-- The exponent at the front of a text, with the number of its characters. -/
def exponent? : List Char → Option (Int × Nat)
  | c :: rest =>
    if c = 'e' ∨ c = 'E' then
      let signed := rest.head? = some '+' ∨ rest.head? = some '-'
      let digits := (if signed then rest.tail else rest).takeWhile Char.isDigit
      let value : Int := ofDigits digits
      if digits = [] then none
      else some (if rest.head? = some '-' then -value else value,
        digits.length + if signed then 2 else 1)
    else none
  | [] => none

/-- The decimal written by the digits before and after the point, scaled by a power of ten. -/
def ofParts (whole fraction : List Char) (exponent : Int) : Decimal :=
  ⟨ofDigits (whole ++ fraction), exponent - fraction.length⟩

end SpinBoson.Decimal
