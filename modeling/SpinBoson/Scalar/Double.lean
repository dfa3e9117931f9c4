import SpinBoson.Decimal.Hypot
import SpinBoson.Scalar.Basic

/-!
Double-precision numbers by their bits, so that a NaN has a sign as well. It has no influence on
values, but literals are written with it and their order depends on it.
-/
namespace SpinBoson

structure Double where
  bits : UInt64
deriving Inhabited

namespace Double

def toFloat (x : Double) : Float :=
  Float.ofBits x.bits

/-- The bits of a value; a NaN is positive. -/
def ofFloat (x : Float) : Double :=
  ⟨x.toBits⟩

instance instOfNat (n : Nat) : OfNat Double n := ⟨ofFloat (Float.ofNat n)⟩

/-- The positive NaN. -/
def nan : Double :=
  ⟨0x7ff8000000000000⟩

/-- What an operation on numbers gives where it has no value: the negative NaN. -/
def undefined : Double :=
  ⟨0xfff8000000000000⟩

def isNaN (x : Double) : Bool :=
  x.toFloat.isNaN

def isInf (x : Double) : Bool :=
  x.toFloat.isInf

def isFinite (x : Double) : Bool :=
  x.toFloat.isFinite

/-- Whether the number has a minus sign; so have negative zeros and negative NaNs. -/
def signBit (x : Double) : Bool :=
  x.bits >>> 63 = 1

/-- The outcome of an operation with the value `y`. A NaN is that of the first operand with one. -/
def outcome (operands : List Double) (y : Float) : Double :=
  if y.isNaN then (operands.find? isNaN).getD undefined else ofFloat y

def lift (f : Float → Float) (x : Double) : Double :=
  outcome [x] (f x.toFloat)

def lift₂ (f : Float → Float → Float) (x y : Double) : Double :=
  outcome [x, y] (f x.toFloat y.toFloat)

/-- The other sign, also of a zero or a NaN. -/
def neg (x : Double) : Double :=
  ⟨x.bits ^^^ 0x8000000000000000⟩

def abs (x : Double) : Double :=
  ⟨x.bits &&& 0x7fffffffffffffff⟩

instance : Add Double := ⟨lift₂ (· + ·)⟩
instance : Sub Double := ⟨lift₂ (· - ·)⟩
instance : Mul Double := ⟨lift₂ (· * ·)⟩
instance : Div Double := ⟨lift₂ (· / ·)⟩
instance : Neg Double := ⟨neg⟩

/-! Numbers compare by value: zeros of both signs are equal, and a NaN equals nothing. -/

instance : BEq Double := ⟨fun x y => x.toFloat == y.toFloat⟩
instance : LE Double := ⟨fun x y => x.toFloat ≤ y.toFloat⟩
instance : LT Double := ⟨fun x y => x.toFloat < y.toFloat⟩

instance : DecidableLE Double :=
  fun x y => inferInstanceAs (Decidable (x.toFloat ≤ y.toFloat))

instance : DecidableLT Double :=
  fun x y => inferInstanceAs (Decidable (x.toFloat < y.toFloat))

def sqrt : Double → Double := lift Float.sqrt
def exp : Double → Double := lift Float.exp
def log : Double → Double := lift Float.log
def sin : Double → Double := lift Float.sin
def cos : Double → Double := lift Float.cos
def sinh : Double → Double := lift Float.sinh
def cosh : Double → Double := lift Float.cosh
def pow : Double → Double → Double := lift₂ Float.pow

/-- The length of the vector `(x, y)`. -/
def hypot : Double → Double → Double :=
  lift₂ SpinBoson.hypot

/-- The angle of the vector `(x, y)`. -/
def angle : Double → Double → Double :=
  lift₂ fun x y => Float.atan2 y x

instance : RealScalar Double where
  zero := 0
  one := 1
  decidableLE := inferInstance
  decidableLT := inferInstance
  abs := abs
  pi := ofFloat 3.141592653589793
  ofDecimal d := ofFloat d.toFloat
  hasMinus := signBit
  isWhole x := isWhole x.toFloat
  text x := floatText x.toFloat

end Double

end SpinBoson
