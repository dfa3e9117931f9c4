import SpinBoson.Decimal.Basic

/-!
The numbers that coefficients are made of. Everything above works over any type of scalars with
these operations; no law is assumed here, so that rounding arithmetic is an instance.
-/
namespace SpinBoson

/-- The functions of one argument that have a name in coefficient expressions. -/
inductive Func where
  | sin | cos | tan | exp | log | sqrt | sinh | cosh | tanh | asin | acos | atan | abs | conj
deriving DecidableEq, Inhabited

namespace Func

def all : List Func :=
  [sin, cos, tan, exp, log, sqrt, sinh, cosh, tanh, asin, acos, atan, abs, conj]

def name : Func → String
  | sin => "sin"
  | cos => "cos"
  | tan => "tan"
  | exp => "exp"
  | log => "log"
  | sqrt => "sqrt"
  | sinh => "sinh"
  | cosh => "cosh"
  | tanh => "tanh"
  | asin => "asin"
  | acos => "acos"
  | atan => "atan"
  | abs => "abs"
  | conj => "conj"

/-- Names are case-sensitive. -/
def ofName? (name : String) : Option Func :=
  all.find? (·.name = name)

theorem mem_all (f : Func) : f ∈ all := by
  cases f <;> decide

theorem ofName?_name (f : Func) : ofName? f.name = some f := by
  cases f <;> decide

theorem name_of_ofName? {s : String} {f : Func} (h : ofName? s = some f) : f.name = s := by
  have := List.find?_some h
  simpa using this

end Func

/-- The real numbers that scalars are made of, with their spelling. -/
class RealScalar (ρ : Type) extends Zero ρ, One ρ, Neg ρ, BEq ρ, LE ρ, LT ρ where
  decidableLE : DecidableLE ρ
  decidableLT : DecidableLT ρ
  abs : ρ → ρ
  pi : ρ
  ofDecimal : Decimal → ρ
  /-- Whether the number is written with a minus sign; a zero may have one. -/
  hasMinus : ρ → Bool
  isWhole : ρ → Bool
  text : ρ → String

instance RealScalar.instDecidableLE {ρ : Type} [RealScalar ρ] : DecidableLE ρ :=
  RealScalar.decidableLE

instance RealScalar.instDecidableLT {ρ : Type} [RealScalar ρ] : DecidableLT ρ :=
  RealScalar.decidableLT

/-- Complex numbers over the reals `ρ`. -/
class Scalar (κ : Type) (ρ : outParam Type) [RealScalar ρ] extends
    Zero κ, One κ, Add κ, Sub κ, Mul κ, Neg κ, Div κ, BEq κ where
  ofParts : ρ → ρ → κ
  re : κ → ρ
  im : κ → ρ
  magnitude : κ → ρ
  power : κ → κ → κ
  apply : Func → κ → κ

namespace Scalar

variable {κ ρ : Type} [RealScalar ρ] [Scalar κ ρ]

def ofReal (x : ρ) : κ :=
  ofParts x 0

/-- The imaginary unit. -/
def imag : κ :=
  ofParts 0 1

/-- The real number minus one. -/
def minusOne : κ :=
  ofReal (-1 : ρ)

/-- Whether a magnitude counts as zero. -/
def isNegligible (tolerance : ρ) (z : κ) : Bool :=
  magnitude z ≤ tolerance

def isInteger (z : κ) : Bool :=
  im z == 0 && RealScalar.isWhole (re z)

/--
Whether a power has no value because it would divide by zero: the base is zero and the exponent has
a negative real part.
-/
def dividesByZero (base exponent : κ) : Bool :=
  base == 0 && decide (re exponent < 0)

/--
The text of a literal. It stands in parentheses unless it is a nonnegative real, and reads back as
sums and products of real literals and the imaginary unit.
-/
def text (z : κ) : String :=
  let x := re z
  let y := im z
  if y == 0 then
    if RealScalar.hasMinus x then s!"({RealScalar.text x})" else RealScalar.text x
  else if x == 0 then s!"({RealScalar.text y} * i)"
  else if y < 0 then s!"({RealScalar.text x} - {RealScalar.text (-y)} * i)"
  else s!"({RealScalar.text x} + {RealScalar.text y} * i)"

end Scalar

end SpinBoson
