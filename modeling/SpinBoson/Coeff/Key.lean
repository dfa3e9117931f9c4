import SpinBoson.Coeff.Basic
import SpinBoson.Digest
import SpinBoson.Scalar.Elementary

/-! The order of operands in sums and products: by kind, then by a key of the whole tree. -/
namespace SpinBoson

/-- A number for every coefficient, by which operands of one kind are ordered. -/
class OrderKey (κ : Type) where
  key : Coeff κ → Nat

namespace Coeff

variable {κ : Type} [OrderKey κ]

/-- Kind first, key second. -/
def orderKey (e : Coeff κ) : Nat × Nat :=
  (e.rank, OrderKey.key e)

/-- The lexicographic order of keys. -/
def keyLE (a b : Nat × Nat) : Bool :=
  a.1 < b.1 || (a.1 == b.1 && a.2 ≤ b.2)

/-- The operands by increasing key; those with one key keep their order. -/
def sortOperands (es : List (Coeff κ)) : List (Coeff κ) :=
  let keyed := es.map fun e => (e.orderKey, e)
  (keyed.mergeSort fun a b => keyLE a.1 b.1).map (·.2)

/-- The bits of a part of a literal; both zeros share theirs. -/
def partBits (x : Double) : UInt64 :=
  if x == 0 then 0 else x.bits

/-- Feeds the nodes of the tree from the root down, left to right. -/
def feed (h : Digest) : Coeff ComplexDouble → Digest
  | lit z => ((h.feed 0).feed (partBits z.re)).feed (partBits z.im)
  | var name => (h.feed 1).feedText name
  | raw text => (h.feed 9).feedText text
  | neg e => e.feed (h.feed 8)
  | bin op a b => b.feed (a.feed (h.feed (bin op a b).rank.toUInt64))
  | app f e => e.feed ((h.feed 3).feedText f.name)

/-- The digest of a tree; trees that are equal but for the sign of a zero share it. -/
def digest (e : Coeff ComplexDouble) : UInt64 :=
  (e.feed .empty).finish

end Coeff

instance : OrderKey ComplexDouble :=
  ⟨fun e => e.digest.toNat⟩

end SpinBoson
