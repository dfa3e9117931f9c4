import SpinBoson.Coeff.LikeTerms
import SpinBoson.Pass
import SpinBoson.Settings

/-!
The normal form of coefficients: sums of products, each a number times sorted factors. Text is read
first; then products are distributed over sums, operands sorted and like terms collected, each step
repeated until it changes nothing, and so is their sequence.
-/
namespace SpinBoson.Coeff

variable {κ ρ : Type} [RealScalar ρ] [Scalar κ ρ]

/-- Reads the text at a node. -/
def readRaw : Coeff κ → Except ParseError (Coeff κ)
  | raw text => parse text
  | e => .ok e

def minusOne : Coeff κ :=
  lit Scalar.minusOne

/--
A quotient as a product with the inverse of the divisor, distributed over a sum. A literal zero
divisor stays.
-/
def distributeQuotient (a b : Coeff κ) : Coeff κ :=
  match a, b with
  | a, lit y =>
    if y == 0 then div a (lit y)
    else
      match a with
      | lit x => lit (x / y)
      | add u v => add (div u (lit y)) (div v (lit y))
      | a => mul a (lit (1 / y))
  | add u v, b => add (div u b) (div v b)
  | a, b => mul a (pow b minusOne)

/--
A power of literals is a literal unless it divides by zero, and a whole power of a power is one
power.
-/
def distributePower (a b : Coeff κ) : Coeff κ :=
  if b.isLiteral 1 then a
  else if b.isLiteral 0 then lit 1
  else
    match a, b with
    | lit x, lit y =>
      if Scalar.dividesByZero x y then pow (lit x) (lit y) else lit (Scalar.power x y)
    | pow base (lit x), lit y =>
      if Scalar.isInteger y then pow base (lit (x * y)) else pow (pow base (lit x)) (lit y)
    | a, b => pow a b

/-- One step at a node towards sums of products of literals, variables, powers and functions. -/
def distribute : Coeff κ → Coeff κ
  | neg (lit z) => lit (-z)
  | neg e => mul minusOne e
  | sub a b => add a (mul minusOne b)
  | add (lit x) (lit y) => lit (x + y)
  | mul (lit x) (lit y) => lit (x * y)
  | mul (add u v) b => add (mul u b) (mul v b)
  | mul a (add u v) => add (mul a u) (mul a v)
  | div a b => distributeQuotient a b
  | pow a b => distributePower a b
  | app f (lit z) => lit (Scalar.apply f z)
  | e => e

/-- The new node, unless it is equal to the old one. -/
def unlessEqual (old new : Coeff κ) : Coeff κ :=
  if new == old then old else new

/-- Sorts the operands of a sum or product and nests them to the left. -/
def sortChain [OrderKey κ] (e : Coeff κ) : Coeff κ :=
  let sorted (op : Op) : Coeff κ :=
    unlessEqual e ((leftNested? (bin op) (sortOperands (e.operands op))).getD e)
  match e with
  | add _ _ => sorted .add
  | mul _ _ => sorted .mul
  | e => e

/-- Collects the numbers of a sum or product. -/
def collect [OrderKey κ] (tolerance : ρ) (e : Coeff κ) : Coeff κ :=
  match e with
  | add _ _ => unlessEqual e (e.collectSum tolerance)
  | mul _ _ => unlessEqual e (e.collectProduct tolerance)
  | e => e

def readRawRule : Rule κ (Except Error) :=
  Rule.ofCoeff "ParseRaw" fun (e : Coeff κ) => e.readRaw.mapError Error.ofParse

def distributeRule : Rule κ (Except Error) :=
  Rule.ofCoeff "Distribute" fun (e : Coeff κ) => .ok e.distribute

variable [OrderKey κ]

def sortRule : Rule κ (Except Error) :=
  Rule.ofCoeff "ProperOrder" fun (e : Coeff κ) => .ok e.sortChain

def collectRule (tolerance : ρ) : Rule κ (Except Error) :=
  Rule.ofCoeff "Partition" fun (e : Coeff κ) => .ok (e.collect tolerance)

/-- The pass that leads to the normal form. -/
def normalization (s : Settings ρ) : Pass (Coeff κ) :=
  let once (r : Rule κ (Except Error)) : Pass (Coeff κ) := .ofRule .post r
  let repeated (r : Rule κ (Except Error)) : Pass (Coeff κ) := .fixedPoint s.maxIterations (once r)
  .fixedPoint s.maxIterations (.chain "math normalization"
    [once readRawRule, repeated distributeRule, repeated sortRule,
      repeated (collectRule s.tolerance)])

def normalize (s : Settings ρ) (e : Coeff κ) : Except Error (Coeff κ) :=
  (normalization s).run e

end SpinBoson.Coeff
