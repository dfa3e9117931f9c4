import SpinBoson.Error

/-! The value of a coefficient under a binding of its variables. -/
namespace SpinBoson.Coeff

variable {κ ρ : Type} [RealScalar ρ] [Scalar κ ρ]

/-- Values of variables. -/
abbrev Bindings (κ : Type) := String → Option κ

/-- The value of an operation on two values; an error names the node it arose at. -/
def Op.value (op : Op) (node : Coeff κ) (x y : κ) : Except EvaluationError κ :=
  match op with
  | .add => .ok (x + y)
  | .sub => .ok (x - y)
  | .mul => .ok (x * y)
  | .div => if y == 0 then .error (.divisionByZero node.text) else .ok (x / y)
  | .pow =>
    if Scalar.dividesByZero x y then .error (.divisionByZero node.text)
    else .ok (Scalar.power x y)

/-- The value of a coefficient whose unread text has the values that `ofRaw` gives it. -/
def valueWith (ofRaw : String → Except EvaluationError κ) (bindings : Bindings κ) :
    Coeff κ → Except EvaluationError κ
  | lit z => .ok z
  | var name =>
    match bindings name with
    | some z => .ok z
    | none => .error (.unbound name)
  | raw text => ofRaw text
  | neg e => do return -(← valueWith ofRaw bindings e)
  | bin op a b => do
    let x ← valueWith ofRaw bindings a
    let y ← valueWith ofRaw bindings b
    op.value (bin op a b) x y
  | app f e => do return Scalar.apply f (← valueWith ofRaw bindings e)

/-- The value of text; what has been read holds no unread text. -/
def textValue (bindings : Bindings κ) (text : String) : Except EvaluationError κ :=
  match (parse text : Except ParseError (Coeff κ)) with
  | .ok e => valueWith (fun name => .error (.unbound name)) bindings e
  | .error cause => .error (.malformed cause)

/-- The value of a coefficient; text in it is read when its turn comes. -/
def value (bindings : Bindings κ) (e : Coeff κ) : Except EvaluationError κ :=
  valueWith (textValue bindings) bindings e

end SpinBoson.Coeff
