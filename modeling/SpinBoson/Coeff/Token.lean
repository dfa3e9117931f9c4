import SpinBoson.Decimal.Numeral
import SpinBoson.Decimal.Shortest

/-!
The tokens of coefficient text. At each place the longest token is taken; a character where none
starts is reported by itself, and reading goes on behind it.
-/
namespace SpinBoson

inductive Token where
  | imag
  | pi
  | float (value : Decimal)
  /-- A whole number of at most `Token.maxInt`. -/
  | int (value : Nat)
  | ident (name : String)
  | plus | minus | star | slash | power | caret | lparen | rparen
deriving DecidableEq, Inhabited

/-- A piece of the text, from one byte offset to another: a token, or text that is none. -/
structure Lexeme where
  token? : Option Token
  text : String
  start : Nat
  stop : Nat
deriving DecidableEq

namespace Token

def maxInt : Nat :=
  Nat.pow 2 64 - 1

/-- Numbers are shown by value, all other tokens as they are written. -/
def text : Token → String
  | imag => "i"
  | pi => "pi"
  | float value => floatText value.toFloat
  | int value => toString value
  | ident name => name
  | plus => "+"
  | minus => "-"
  | star => "*"
  | slash => "/"
  | power => "**"
  | caret => "^"
  | lparen => "("
  | rparen => ")"

def isNumber : Token → Bool
  | float _ | int _ => true
  | _ => false

def isPower : Token → Bool
  | power | caret => true
  | _ => false

/--
The number at the front of a text and how many characters it has; none of these makes a number when
the text starts otherwise. A whole number that is too large is no token, whatever its length.
-/
def number (cs : List Char) : Option Token × Nat :=
  let whole := cs.takeWhile Char.isDigit
  let rest := cs.drop whole.length
  match rest with
  | '.' :: rest =>
    let fraction := rest.takeWhile Char.isDigit
    if whole = [] ∧ fraction = [] then (none, 0)
    else
      let (exponent, length) := (Decimal.exponent? (rest.drop fraction.length)).getD (0, 0)
      (some (float (Decimal.ofParts whole fraction exponent)),
        whole.length + 1 + fraction.length + length)
  | _ =>
    if whole = [] then (none, 0)
    else
      match Decimal.exponent? rest with
      | some (exponent, length) =>
        (some (float (Decimal.ofParts whole [] exponent)), whole.length + length)
      | none =>
        let value := Decimal.ofDigits whole
        (if value ≤ maxInt then some (int value) else none, whole.length)

def isWordStart (c : Char) : Bool :=
  c.isAlpha || c = '_'

def isWordChar (c : Char) : Bool :=
  c.isAlphanum || c = '_'

/-- A word is a constant or a name. -/
def ofWord (word : String) : Token :=
  if word = "i" then imag else if word = "pi" then pi else ident word

/-- The longest token at the front of a text and how many characters it has. -/
def first (c : Char) (rest : List Char) : Option Token × Nat :=
  if isWordStart c then
    let word := c :: rest.takeWhile isWordChar
    (some (ofWord (String.ofList word)), word.length)
  else if c.isDigit || c = '.' then number (c :: rest)
  else
    match c with
    | '+' => (some plus, 1)
    | '-' => (some minus, 1)
    | '*' => if rest.head? = some '*' then (some power, 2) else (some star, 1)
    | '/' => (some slash, 1)
    | '^' => (some caret, 1)
    | '(' => (some lparen, 1)
    | ')' => (some rparen, 1)
    | _ => (none, 1)

def isBlank (c : Char) : Bool :=
  c = ' ' || c = '\t' || c = '\r' || c = '\n'

end Token

namespace Lexeme

/-- The lexemes of a text that starts at the given byte offset. -/
def scanFrom (start : Nat) : List Char → List Lexeme
  | [] => []
  | c :: rest =>
    if Token.isBlank c then scanFrom (start + 1) rest
    else
      let (token?, length) := Token.first c rest
      let text := String.ofList (c :: rest.take (length - 1))
      let stop := start + text.utf8ByteSize
      ⟨token?, text, start, stop⟩ :: scanFrom stop (rest.drop (length - 1))
termination_by cs => cs.length
decreasing_by all_goals simp; try omega

def scan (text : String) : List Lexeme :=
  scanFrom 0 text.toList

end Lexeme

end SpinBoson
