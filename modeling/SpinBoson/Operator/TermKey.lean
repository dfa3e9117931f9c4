import SpinBoson.Operator.Basic

/-! Keys that identify the tensor chain of a term, whatever its coefficient. -/
namespace SpinBoson

/-- One place of a chain: a Pauli operator, or a word of ladder operators. -/
inductive FactorKey where
  | pauli (p : Pauli)
  | word (letters : List Ladder)
deriving DecidableEq, Inhabited

abbrev TermKey := List FactorKey

namespace FactorKey

/-- Pauli operators come before words, and words are ordered letter by letter. -/
def code : FactorKey → List Nat
  | pauli p => [0, p.rank]
  | word letters => 1 :: letters.map Ladder.rank

theorem code_injective {f g : FactorKey} (h : f.code = g.code) : f = g := by
  cases f <;> cases g <;> simp [code] at h
  · rw [Pauli.rank_injective h]
  · rw [(List.map_inj_right fun _ _ => Ladder.rank_injective).1 h]

end FactorKey

namespace TermKey

/-- Keys are ordered place by place. -/
def lt (a b : TermKey) : Bool :=
  decide (a.map FactorKey.code < b.map FactorKey.code)

def le (a b : TermKey) : Bool :=
  !lt b a

end TermKey

namespace Operator

variable {κ : Type}

/-- The key of a factor that is a Pauli operator or a product of ladder operators. -/
def factorKey? (a : Operator κ) : Option FactorKey :=
  match a with
  | pauli p => some (.pauli p)
  | a => (a.mulFactors.mapM ladder?).map .word

/-- An operator without the coefficient in front of it. -/
def unscaled : Operator κ → Operator κ
  | scale _ a => a
  | a => a

/-- The key of a term, its coefficient aside. -/
def termKey? (a : Operator κ) : Option TermKey :=
  a.unscaled.kronFactors.mapM factorKey?

end Operator

end SpinBoson
