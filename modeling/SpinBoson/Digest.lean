/-!
A deterministic 64-bit digest of a stream of words and byte strings. Arithmetic is modulo `2 ^ 64`.
-/
namespace SpinBoson

/-- The digest of the stream fed so far. -/
structure Digest where
  state : UInt64
deriving DecidableEq, Inhabited

namespace Digest

def empty : Digest :=
  ⟨0⟩

def feed (h : Digest) (word : UInt64) : Digest :=
  ⟨(h.state + word) * 0xf1357aea2e62a9c5⟩

/-- The two halves of the 128-bit product, combined by exclusive or. -/
def fold (x y : UInt64) : UInt64 :=
  let product := x.toNat * y.toNat
  UInt64.ofNat product ^^^ UInt64.ofNat (product >>> 64)

/-- The number written by the bytes, the least significant first. -/
def littleEndian (bytes : List UInt8) : UInt64 :=
  bytes.foldr (fun byte rest => rest <<< 8 ||| byte.toUInt64) 0

/-- The word of `width` bytes that starts at the given offset. -/
def wordAt (bytes : List UInt8) (offset width : Nat) : UInt64 :=
  littleEndian ((bytes.drop offset).take width)

/-- Absorbs the first `blocks` blocks of sixteen bytes into the two lanes. -/
def absorb : Nat → List UInt8 → UInt64 × UInt64 → UInt64 × UInt64
  | 0, _, lanes => lanes
  | blocks + 1, bytes, (a, b) =>
    let mixed := fold (a ^^^ wordAt bytes 0 8) (0xa4093822299f31d0 ^^^ wordAt bytes 8 8)
    absorb blocks (bytes.drop 16) (b, mixed)

/--
A byte string as one word. Up to sixteen bytes are read as two words that may overlap; of a longer
string the last sixteen bytes are read so, after the whole blocks before the last byte.
-/
def wordOfBytes (bytes : List UInt8) : UInt64 :=
  let n := bytes.length
  let a : UInt64 := 0x243f6a8885a308d3
  let b : UInt64 := 0x13198a2e03707344
  let (a, b) :=
    if 16 < n then
      let (a, b) := absorb ((n - 1) / 16) bytes (a, b)
      (a ^^^ wordAt bytes (n - 16) 8, b ^^^ wordAt bytes (n - 8) 8)
    else if 8 ≤ n then (a ^^^ wordAt bytes 0 8, b ^^^ wordAt bytes (n - 8) 8)
    else if 4 ≤ n then (a ^^^ wordAt bytes 0 4, b ^^^ wordAt bytes (n - 4) 4)
    else if 1 ≤ n then
      (a ^^^ wordAt bytes 0 1, b ^^^ (wordAt bytes (n - 1) 1 <<< 8 ||| wordAt bytes (n / 2) 1))
    else (a, b)
  fold a b ^^^ UInt64.ofNat n

def feedText (h : Digest) (text : String) : Digest :=
  h.feed (wordOfBytes text.toUTF8.toList)

/-- The bits of `x` turned left; those pushed out come in from the right. -/
def rotateLeft (x : UInt64) (bits : UInt64) : UInt64 :=
  x <<< bits ||| x >>> (64 - bits)

def finish (h : Digest) : UInt64 :=
  rotateLeft h.state 26

end Digest

end SpinBoson
