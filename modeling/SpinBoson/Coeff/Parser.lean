import SpinBoson.Coeff.Basic
import SpinBoson.Coeff.Token

/-!
Reading coefficients from text. Sums and products associate to the left, powers to the right; a
minus sign binds tighter than products and weaker than powers. The reader takes one token after the
other and keeps what is still open on a stack, so it stops at the first token that cannot go on.
-/
namespace SpinBoson

/-- What a place in the text asks for. -/
inductive Expected where
  | expression
  | closing
deriving DecidableEq

inductive ParseError where
  | invalidToken (position : Nat) (text : String)
  | unexpectedToken (position : Nat) (expected : Expected) (found : Token)
  | unexpectedEnd (expected : Expected)
  | unknownFunction (name : String)
  | trailingInput (position : Nat) (found : Token)
deriving DecidableEq

namespace ParseError

def message : ParseError → String
  | invalidToken position text =>
    s!"Lexer error at position {position}: Invalid token: '{text}'"
  | unexpectedToken position .expression found =>
    s!"Unexpected token at position {position}: expected expression, found {found.text}"
  | unexpectedToken position .closing found =>
    s!"Unexpected token at position {position}: expected ), found {found.text}"
  | unexpectedEnd .expression => "Unexpected end of input: expression"
  | unexpectedEnd .closing => "Unexpected end of input: expected )"
  | unknownFunction name => s!"Unknown function: {name}"
  | trailingInput position found => s!"Trailing input at position {position}: {found.text}"

end ParseError

/-- A token and the byte offset where it starts. -/
structure PlacedToken where
  token : Token
  start : Nat
deriving DecidableEq

/-- The tokens of a text; the first piece that is none is an error. -/
def PlacedToken.scan (text : String) : Except ParseError (List PlacedToken) :=
  (Lexeme.scan text).mapM fun l =>
    match l.token? with
    | some token => .ok ⟨token, l.start⟩
    | none => .error (.invalidToken l.start l.text)

namespace Coeff

variable {κ ρ : Type} [RealScalar ρ] [Scalar κ ρ]

/-- How tightly an operation holds its operands. -/
def Op.precedence : Op → Nat
  | .add | .sub => 1
  | .mul | .div => 2
  | .pow => 4

/-- The least precedence that an open operation needs to be finished in front of this one. -/
def Op.finishes : Op → Nat
  | .pow => 5
  | op => op.precedence

/-- Something begun that waits for its last operand. -/
inductive Frame (κ : Type) where
  | group
  | call (f : Func)
  /-- A minus sign; one that belongs to a numeral makes a negative literal. -/
  | minus (ofNumeral : Bool)
  | operation (op : Op) (left : Coeff κ)

/-- How tightly an open operation holds its operand; brackets wait for their closing. -/
def Frame.precedence? : Frame κ → Option Nat
  | group | call _ => none
  | minus _ => some 3
  | operation op _ => some op.precedence

/-- The expression that a frame makes of its last operand. -/
def Frame.finish (e : Coeff κ) : Frame κ → Coeff κ
  | group => e
  | call f => app f e
  | minus ofNumeral =>
    match ofNumeral, e with
    | true, lit z => lit (-z)
    | _, e => neg e
  | operation op left => bin op left e

/-- Finishes the open operations that hold at least as tightly as `least`. -/
def reduce (least : Nat) (e : Coeff κ) : List (Frame κ) → Coeff κ × List (Frame κ)
  | [] => (e, [])
  | frame :: stack =>
    match frame.precedence? with
    | some p => if least ≤ p then reduce least (frame.finish e) stack else (e, frame :: stack)
    | none => (e, frame :: stack)

/-- Where the reader stands: before an operand, or behind one. -/
inductive Place (κ : Type) where
  | operand
  | behind (e : Coeff κ)

/-- The operation between two operands that a token denotes. -/
def operation? : Token → Option Op
  | .plus => some .add
  | .minus => some .sub
  | .star => some .mul
  | .slash => some .div
  | .power | .caret => some .pow
  | _ => none

/-- Whether a numeral comes next that is not the base of a power. -/
def negatesNumeral : List PlacedToken → Bool
  | [t] => t.token.isNumber
  | t :: next :: _ => t.token.isNumber && !next.token.isPower
  | [] => false

/-- Reads the remaining tokens. -/
def readFrom (stack : List (Frame κ)) (place : Place κ) (tokens : List PlacedToken) :
    Except ParseError (Coeff κ) :=
  match tokens, place with
  | [], .operand => .error (.unexpectedEnd .expression)
  | [], .behind e =>
    match reduce 0 e stack with
    | (e, []) => .ok e
    | _ => .error (.unexpectedEnd .closing)
  | t :: rest, .operand =>
    match t.token with
    | .int n => readFrom stack (.behind (ofReal (RealScalar.ofDecimal (.ofNat n)))) rest
    | .float d => readFrom stack (.behind (ofReal (RealScalar.ofDecimal d))) rest
    | .imag => readFrom stack (.behind (lit Scalar.imag)) rest
    | .pi => readFrom stack (.behind (ofReal RealScalar.pi)) rest
    | .minus => readFrom (.minus (negatesNumeral rest) :: stack) .operand rest
    | .plus => readFrom stack .operand rest
    | .lparen => readFrom (.group :: stack) .operand rest
    | .ident name =>
      match rest with
      | ⟨.lparen, _⟩ :: rest =>
        match Func.ofName? name with
        | some f => readFrom (.call f :: stack) .operand rest
        | none => .error (.unknownFunction name)
      | rest => readFrom stack (.behind (var name)) rest
    | _ => .error (.unexpectedToken t.start .expression t.token)
  | t :: rest, .behind e =>
    match operation? t.token with
    | some op =>
      let (e, stack) := reduce op.finishes e stack
      readFrom (.operation op e :: stack) .operand rest
    | none =>
      match reduce 0 e stack with
      | (_, []) => .error (.trailingInput t.start t.token)
      | (e, frame :: stack) =>
        if t.token = .rparen then readFrom stack (.behind (frame.finish e)) rest
        else .error (.unexpectedToken t.start .closing t.token)
termination_by structural tokens

/-- Reads a coefficient from a list of tokens. -/
def ofTokens (tokens : List PlacedToken) : Except ParseError (Coeff κ) :=
  readFrom [] .operand tokens

/-- Reads a coefficient from text. -/
def parse (text : String) : Except ParseError (Coeff κ) :=
  PlacedToken.scan text >>= ofTokens

end Coeff

end SpinBoson
