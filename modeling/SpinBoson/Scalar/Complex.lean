import SpinBoson.Scalar.Double

/-! Complex numbers as pairs of doubles: arithmetic without scaling or fused operations. -/
namespace SpinBoson

/-- A complex number with parts in double precision; equality compares the parts as numbers. -/
structure ComplexDouble where
  re : Double
  im : Double
deriving BEq, Inhabited

namespace ComplexDouble

def ofReal (x : Double) : ComplexDouble :=
  ⟨x, 0⟩

/-- The imaginary unit. -/
def i : ComplexDouble :=
  ⟨0, 1⟩

def add (z w : ComplexDouble) : ComplexDouble :=
  ⟨z.re + w.re, z.im + w.im⟩

def sub (z w : ComplexDouble) : ComplexDouble :=
  ⟨z.re - w.re, z.im - w.im⟩

def mul (z w : ComplexDouble) : ComplexDouble :=
  ⟨z.re * w.re - z.im * w.im, z.re * w.im + z.im * w.re⟩

/-- Both parts change sign, those that are zero too. -/
def neg (z : ComplexDouble) : ComplexDouble :=
  ⟨-z.re, -z.im⟩

def div (z w : ComplexDouble) : ComplexDouble :=
  let norm := w.re * w.re + w.im * w.im
  ⟨(z.re * w.re + z.im * w.im) / norm, (z.im * w.re - z.re * w.im) / norm⟩

instance : Add ComplexDouble := ⟨add⟩
instance : Sub ComplexDouble := ⟨sub⟩
instance : Mul ComplexDouble := ⟨mul⟩
instance : Neg ComplexDouble := ⟨neg⟩
instance : Div ComplexDouble := ⟨div⟩

def inverse (z : ComplexDouble) : ComplexDouble :=
  let norm := z.re * z.re + z.im * z.im
  ⟨z.re / norm, -z.im / norm⟩

def conj (z : ComplexDouble) : ComplexDouble :=
  ⟨z.re, -z.im⟩

def magnitude (z : ComplexDouble) : Double :=
  z.re.hypot z.im

def angle (z : ComplexDouble) : Double :=
  z.re.angle z.im

/-- The product of the powers of `z` at the bits of `n`, lowest first, for a positive `n`. -/
def powNat (z : ComplexDouble) (n : Nat) : ComplexDouble :=
  go n.log2 z n none
where
  go : Nat → ComplexDouble → Nat → Option ComplexDouble → ComplexDouble
    | 0, base, _, product => product.elim base (· * base)
    | bits + 1, base, n, product =>
      let product := if n % 2 = 0 then product else some (product.elim base (· * base))
      go bits (base * base) (n / 2) product

/-- A whole power; a negative one is a power of the inverse. -/
def powInt (z : ComplexDouble) (n : Int) : ComplexDouble :=
  if n = 0 then ofReal 1
  else if n < 0 then z.inverse.powNat n.natAbs
  else z.powNat n.natAbs

end ComplexDouble

end SpinBoson
