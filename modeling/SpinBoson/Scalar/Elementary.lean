import SpinBoson.Scalar.Complex

/-! Elementary functions and powers of complex doubles, from the real ones. -/
namespace SpinBoson.ComplexDouble

/-- Infinite and undefined exponents keep a zero imaginary part zero. -/
def exp (z : ComplexDouble) : ComplexDouble :=
  if z.re.isInf && z.re < 0 && !z.im.isFinite then ⟨0, 0⟩
  else if z.re.isInf && 0 < z.re && (z.im == 0 || !z.im.isFinite) then
    ⟨z.re, if z.im.isInf then .nan else z.im⟩
  else if z.re.isNaN && z.im == 0 then z
  else
    let r := z.re.exp
    ⟨r * z.im.cos, r * z.im.sin⟩

def log (z : ComplexDouble) : ComplexDouble :=
  ⟨z.magnitude.log, z.angle⟩

/-- `x` with the sign of `y`. -/
def withSign (x y : Double) : Double :=
  if y.signBit then -x else x

/-- The principal root; on the axes it is exact. -/
def sqrt (z : ComplexDouble) : ComplexDouble :=
  if z.im == 0 then
    if z.re.signBit then ⟨0, withSign (-z.re).sqrt z.im⟩ else ⟨z.re.sqrt, z.im⟩
  else if z.re == 0 then
    let x := (z.im.abs / 2).sqrt
    ⟨x, withSign x z.im⟩
  else
    let r := z.magnitude.sqrt
    let half := z.angle / 2
    ⟨r * half.cos, r * half.sin⟩

def sin (z : ComplexDouble) : ComplexDouble :=
  ⟨z.re.sin * z.im.cosh, z.re.cos * z.im.sinh⟩

def cos (z : ComplexDouble) : ComplexDouble :=
  ⟨z.re.cos * z.im.cosh, -z.re.sin * z.im.sinh⟩

def tan (z : ComplexDouble) : ComplexDouble :=
  let a := z.re + z.re
  let b := z.im + z.im
  let d := a.cos + b.cosh
  ⟨a.sin / d, b.sinh / d⟩

def sinh (z : ComplexDouble) : ComplexDouble :=
  ⟨z.re.sinh * z.im.cos, z.re.cosh * z.im.sin⟩

def cosh (z : ComplexDouble) : ComplexDouble :=
  ⟨z.re.cosh * z.im.cos, z.re.sinh * z.im.sin⟩

def tanh (z : ComplexDouble) : ComplexDouble :=
  let a := z.re + z.re
  let b := z.im + z.im
  let d := a.cosh + b.cos
  ⟨a.sinh / d, b.sin / d⟩

def asin (z : ComplexDouble) : ComplexDouble :=
  -i * ((ofReal 1 - z * z).sqrt + i * z).log

def acos (z : ComplexDouble) : ComplexDouble :=
  -i * (i * (ofReal 1 - z * z).sqrt + z).log

/-- At the two poles the value is infinite along the imaginary axis. -/
def atan (z : ComplexDouble) : ComplexDouble :=
  if z == i then ⟨0, 1 / 0⟩
  else if z == -i then ⟨0, -(1 / 0)⟩
  else ((ofReal 1 + i * z).log - (ofReal 1 - i * z).log) / (ofReal 2 * i)

def apply (f : Func) (z : ComplexDouble) : ComplexDouble :=
  match f with
  | .sin => z.sin
  | .cos => z.cos
  | .tan => z.tan
  | .exp => z.exp
  | .log => z.log
  | .sqrt => z.sqrt
  | .sinh => z.sinh
  | .cosh => z.cosh
  | .tanh => z.tanh
  | .asin => z.asin
  | .acos => z.acos
  | .atan => z.atan
  | .abs => ofReal z.magnitude
  | .conj => z.conj

/-- The largest whole exponent that is raised by repeated multiplication. -/
def maxWholeExponent : Nat :=
  Nat.pow 2 31 - 1

/--
Whole exponents of moderate size multiply, real powers of nonnegative reals stay real, and all
others go through the logarithm.
-/
def power (z w : ComplexDouble) : ComplexDouble :=
  let n := (BinaryFraction.ofFloat w.re.toFloat).floor
  if w.im == 0 && isWhole w.re.toFloat && n ≤ maxWholeExponent then
    z.powInt (if w.re.signBit then Int.negOfNat n else n)
  else if w.im == 0 && z.im == 0 && 0 ≤ z.re then ofReal (z.re.pow w.re)
  else (w * z.log).exp

instance : Scalar ComplexDouble Double where
  zero := ofReal 0
  one := ofReal 1
  ofParts := ComplexDouble.mk
  re := ComplexDouble.re
  im := ComplexDouble.im
  magnitude := magnitude
  power := power
  apply := apply

end SpinBoson.ComplexDouble
