import Mathlib
import SpinBoson.Canonical.PauliReduced
import SpinBoson.Canonical.SortedTerms
import SpinBoson.Proofs.Coeff.Value
import SpinBoson.Proofs.Operator.Element
import SpinBoson.Proofs.Operator.Keys

/-!
The meaning of operators: the element that a tree denotes wherever its sums and products combine
equally many qubits and modes and its coefficients have values. Qubits and modes are counted apart,
so a qubit may stand before or after a mode. Numbers for coefficients and matrices for spins with the
same laws interpret operators, too, in other elements. Keys of terms have an interpretation, and for
each key there is a linear map that reads off its coordinate.
-/
namespace SpinBoson

/-! Dimensions -/

namespace Dims

instance : Zero Dims := ⟨⟨0, 0⟩⟩

instance : Add Dims := ⟨fun d e => ⟨d.qubits + e.qubits, d.modes + e.modes⟩⟩

@[simp]
theorem zero_qubits : (0 : Dims).qubits = 0 := rfl

@[simp]
theorem zero_modes : (0 : Dims).modes = 0 := rfl

@[simp]
theorem add_qubits (d e : Dims) : (d + e).qubits = d.qubits + e.qubits := rfl

@[simp]
theorem add_modes (d e : Dims) : (d + e).modes = d.modes + e.modes := rfl

protected theorem add_assoc (d e f : Dims) : d + e + f = d + (e + f) :=
  congrArg₂ mk (Nat.add_assoc _ _ _) (Nat.add_assoc _ _ _)

protected theorem add_comm (d e : Dims) : d + e = e + d :=
  congrArg₂ mk (Nat.add_comm _ _) (Nat.add_comm _ _)

protected theorem zero_add (d : Dims) : 0 + d = d :=
  congrArg₂ mk (Nat.zero_add _) (Nat.zero_add _)

instance : AddCommMonoid Dims where
  add_assoc := Dims.add_assoc
  add_comm := Dims.add_comm
  zero_add := Dims.zero_add
  add_zero d := (Dims.add_comm d 0).trans (Dims.zero_add d)
  nsmul := nsmulRec

end Dims

namespace Operator

variable {κ : Type}

/-- How many qubits and modes an operator acts on; those of a sum or product are those of its left
operand. -/
def dims : Operator κ → Dims
  | spin _ => ⟨1, 0⟩
  | mode _ => ⟨0, 1⟩
  | kron a b => a.dims + b.dims
  | bin _ a _ => a.dims
  | scale _ a => a.dims

@[simp] theorem dims_spin (s : Spin) : (spin s : Operator κ).dims = ⟨1, 0⟩ := rfl
@[simp] theorem dims_mode (l : Ladder) : (mode l : Operator κ).dims = ⟨0, 1⟩ := rfl
@[simp] theorem dims_add (a b : Operator κ) : (add a b).dims = a.dims := rfl
@[simp] theorem dims_sub (a b : Operator κ) : (sub a b).dims = a.dims := rfl
@[simp] theorem dims_mul (a b : Operator κ) : (mul a b).dims = a.dims := rfl
@[simp] theorem dims_kron (a b : Operator κ) : (kron a b).dims = a.dims + b.dims := rfl
@[simp] theorem dims_scale (c : Coeff κ) (a : Operator κ) : (scale c a).dims = a.dims := rfl

/-- Whether the operands of sums, differences and products act on equally many qubits and modes. -/
def Balanced : Operator κ → Prop
  | spin _ | mode _ => True
  | kron a b => a.Balanced ∧ b.Balanced
  | bin _ a b => a.Balanced ∧ b.Balanced ∧ b.dims = a.dims
  | scale _ a => a.Balanced

theorem balanced_of_signature {a : Operator κ} {s : Signature} (h : a.signature = .ok s) :
    a.Balanced ∧ a.dims = s.dims := by
  induction a generalizing s with
  | spin | mode => cases h; exact ⟨trivial, rfl⟩
  | scale c a ih => exact ih h
  | bin op a b iha ihb =>
    cases op with
    | kron =>
      obtain ⟨l, hl, h⟩ := bind_eq_ok.mp h
      obtain ⟨r, hr, h⟩ := bind_eq_ok.mp h
      cases h
      obtain ⟨ha, hda⟩ := iha hl
      obtain ⟨hb, hdb⟩ := ihb hr
      refine ⟨⟨ha, hb⟩, ?_⟩
      rw [dims_kron, hda, hdb, Signature.dims_append]
      rfl
    | add | sub | mul =>
      obtain ⟨l, hl, h⟩ := bind_eq_ok.mp h
      obtain ⟨r, hr, h⟩ := bind_eq_ok.mp h
      split at h
      · rename_i heq
        cases h
        obtain ⟨ha, hda⟩ := iha hl
        obtain ⟨hb, hdb⟩ := ihb hr
        exact ⟨⟨ha, hb, by rw [hda, hdb, heq]⟩, hda⟩
      · cases h

end Operator

/-! Matrices of one qubit -/

section Matrices

variable {κ ρ : Type} [RealScalar ρ] [Scalar κ ρ] [ExactScalar κ]

/-- The matrix of a Pauli operator. -/
def Pauli.matrix : Pauli → Matrix (Fin 2) (Fin 2) κ
  | i => 1
  | x => !![0, 1; 1, 0]
  | y => !![0, -Scalar.imag; Scalar.imag, 0]
  | z => !![1, 0; 0, -1]

/-- The raising operator is half of X plus iY, the lowering operator half of X minus iY. -/
def Spin.matrix : Spin → Matrix (Fin 2) (Fin 2) κ
  | pauli p => p.matrix
  | raising => (Scalar.ofReal (Operator.half : ρ) : κ) •
    (Pauli.x.matrix + (Scalar.imag : κ) • Pauli.y.matrix)
  | lowering => (Scalar.ofReal (Operator.half : ρ) : κ) •
    (Pauli.x.matrix - (Scalar.imag : κ) • Pauli.y.matrix)

theorem Pauli.matrix_mul (p q : Pauli) :
    (p.matrix * q.matrix : Matrix (Fin 2) (Fin 2) κ) =
      ((p.mul q).1.value : κ) • (p.mul q).2.matrix := by
  have hi : (Scalar.imag : κ) * Scalar.imag = -1 := ExactRing.imag_mul_imag
  cases p <;> cases q <;> ext i j <;> fin_cases i <;> fin_cases j <;>
    simp [Pauli.mul, Pauli.matrix, Phase.value, Matrix.mul_apply, hi]

end Matrices

namespace Element

variable {ι R : Type} [CommSemiring R]

/-- A polynomial as an element. -/
noncomputable def ofLetters : Letters R →ₐ[R] Element ι R :=
  (Algebra.ofId (Letters R) (Element ι R)).restrictScalars R

theorem ofLetters_commute (p : Letters R) (e : Element ι R) : Commute (ofLetters p) e :=
  Algebra.commutes p e

end Element

namespace Operator

variable {κ ρ : Type} [RealScalar ρ] [Scalar κ ρ] [ExactScalar κ]

/-- The element of an operator whose first qubit and first mode are at some positions: products are
composed, and tensor factors act on positions one after the other. -/
noncomputable def elementAt (β : Coeff.Bindings κ) (start : Dims) : Operator κ → Element (Fin 2) κ
  | spin s => Element.onQubit start.qubits s.matrix
  | mode l => Element.ofLetters (Element.letter start.modes l)
  | add a b => a.elementAt β start + b.elementAt β start
  | sub a b => a.elementAt β start - b.elementAt β start
  | mul a b => a.elementAt β start * b.elementAt β start
  | kron a b => a.elementAt β start * b.elementAt β (start + a.dims)
  | scale c a => c.number β • a.elementAt β start

/-- The element that an operator denotes. -/
noncomputable abbrev element (β : Coeff.Bindings κ) (a : Operator κ) : Element (Fin 2) κ :=
  a.elementAt β 0

end Operator

/-! Interpretations -/

/--
Numbers for coefficients and matrices for spins that agree with the products of Pauli operators, with
the sums that the other spins stand for, and with merged coefficients.
-/
structure Interpretation (κ ι R : Type) {ρ : Type} [RealScalar ρ] [Scalar κ ρ] [Fintype ι]
    [CommSemiring R] where
  Defined : Coeff κ → Prop
  number : Coeff κ → R
  matrix : Spin → Matrix ι ι R
  defined_lit : ∀ z, Defined (.lit z)
  number_one : number (.lit 1) = 1
  merge : ∀ {c d : Coeff κ}, Defined c → Defined d → Defined (Operator.mergeCoeffs c d) ∧
    number (Operator.mergeCoeffs c d) = number c * number d
  matrix_mul : ∀ p q : Pauli, matrix (.pauli p) * matrix (.pauli q) =
    number (.lit (p.mul q).1.value) • matrix (.pauli (p.mul q).2)
  matrix_raising : matrix .raising = number (.ofReal Operator.half) • matrix (.pauli .x) +
    number (.lit (Scalar.ofParts 0 Operator.half)) • matrix (.pauli .y)
  matrix_lowering : matrix .lowering = number (.ofReal Operator.half) • matrix (.pauli .x) +
    number (.lit (Scalar.ofParts 0 (-Operator.half))) • matrix (.pauli .y)

namespace Interpretation

variable {κ ι R ρ : Type} [RealScalar ρ] [Scalar κ ρ] [Fintype ι] [CommSemiring R]

/-- The element of an operator whose first qubit and first mode are at some positions. -/
noncomputable def elementAt (I : Interpretation κ ι R) (start : Dims) :
    Operator κ → Element ι R
  | .spin s => Element.onQubit start.qubits (I.matrix s)
  | .mode l => Element.ofLetters (Element.letter start.modes l)
  | .add a b => I.elementAt start a + I.elementAt start b
  | .sub a b => I.elementAt start a + I.number (.lit Scalar.minusOne) • I.elementAt start b
  | .mul a b => I.elementAt start a * I.elementAt start b
  | .kron a b => I.elementAt start a * I.elementAt (start + a.dims) b
  | .scale c a => I.number c • I.elementAt start a

end Interpretation

section Values

variable {κ ρ : Type} [RealScalar ρ] [Scalar κ ρ]

theorem Operator.mergeCoeffs_number {β : Coeff.Bindings κ} {c d : Coeff κ} (hc : c.Defined β)
    (hd : d.Defined β) :
    (mergeCoeffs c d).Defined β ∧ (mergeCoeffs c d).number β = c.number β * d.number β := by
  unfold mergeCoeffs
  split
  · exact ⟨Coeff.defined_lit _, rfl⟩
  · exact ⟨Coeff.defined_mul.mpr ⟨hc, hd⟩, Coeff.number_mul hc hd⟩

variable [ExactScalar κ]

theorem Spin.matrix_raising :
    (raising.matrix : Matrix (Fin 2) (Fin 2) κ) = (Scalar.ofReal Operator.half : κ) •
      Pauli.x.matrix + ((Scalar.ofReal Operator.half : κ) * Scalar.imag) • Pauli.y.matrix := by
  rw [matrix, smul_add, smul_smul]

theorem Spin.matrix_lowering :
    (lowering.matrix : Matrix (Fin 2) (Fin 2) κ) = (Scalar.ofReal Operator.half : κ) •
      Pauli.x.matrix + ((Scalar.ofReal (-Operator.half) : κ) * Scalar.imag) • Pauli.y.matrix := by
  rw [matrix, smul_sub, smul_smul, ExactScalar.ofReal_neg, neg_mul, neg_smul, ← sub_eq_add_neg]

namespace Interpretation

/-- The values of coefficients and the matrices of spins. -/
noncomputable def ofBindings (β : Coeff.Bindings κ) : Interpretation κ (Fin 2) κ where
  Defined := Coeff.Defined β
  number := Coeff.number β
  matrix := Spin.matrix
  defined_lit := Coeff.defined_lit
  number_one := Coeff.number_lit 1
  merge := Operator.mergeCoeffs_number
  matrix_mul := Pauli.matrix_mul
  matrix_raising := by
    rw [Coeff.ofReal, Coeff.number_lit, Coeff.number_lit, ExactScalar.ofParts_zero]
    exact Spin.matrix_raising
  matrix_lowering := by
    rw [Coeff.ofReal, Coeff.number_lit, Coeff.number_lit, ExactScalar.ofParts_zero]
    exact Spin.matrix_lowering

@[simp]
theorem number_ofBindings (β : Coeff.Bindings κ) (c : Coeff κ) :
    (ofBindings β).number c = c.number β := rfl

/-- The values and the matrices of spins give an operator its own element. -/
theorem elementAt_ofBindings (β : Coeff.Bindings κ) (start : Dims) (a : Operator κ) :
    (ofBindings β).elementAt start a = a.elementAt β start := by
  induction a generalizing start with
  | spin | mode => rfl
  | scale c a ih => rw [elementAt, ih]; rfl
  | bin op a b iha ihb =>
    cases op with
    | add | mul | kron => rw [elementAt, iha, ihb]; rfl
    | sub =>
      have hnumber : (ofBindings β).number (.lit Scalar.minusOne) = -1 :=
        (Coeff.number_lit (β := β) _).trans ExactScalar.minusOne_eq
      rw [elementAt, iha, ihb, hnumber, Operator.elementAt, sub_eq_add_neg]
      exact congrArg _ (Element.minus_one_smul _)

end Interpretation

end Values

/-! The meaning of keys -/

def FactorKey.dims : FactorKey → Dims
  | pauli _ => ⟨1, 0⟩
  | word _ => ⟨0, 1⟩

def TermKey.dims (key : TermKey) : Dims :=
  (key.map FactorKey.dims).sum

namespace Interpretation

variable {κ ι R ρ : Type} [RealScalar ρ] [Scalar κ ρ] [Fintype ι] [CommSemiring R]

noncomputable def factorAt (I : Interpretation κ ι R) (start : Dims) : FactorKey → Element ι R
  | .pauli p => Element.onQubit start.qubits (I.matrix (.pauli p))
  | .word letters => Element.ofLetters (letters.map (Element.letter start.modes)).prod

noncomputable def keyAt (I : Interpretation κ ι R) (start : Dims) : TermKey → Element ι R
  | [] => 1
  | f :: rest => I.factorAt start f * I.keyAt (start + f.dims) rest

/-- The number of a term times the element of its key. -/
noncomputable def termAt (I : Interpretation κ ι R) (start : Dims) (t : Operator.KeyedTerm κ) :
    Element ι R :=
  I.number t.coeff • I.keyAt start t.key

/-- Whether for each key in normal form some linear map finds a number in front of it alone. -/
def Separates (I : Interpretation κ ι R) (sig : Signature) : Prop :=
  ∀ key : TermKey, key.IsNormal sig → ∃ (L : Element ι R →ₗ[R] R) (u : R),
    (∀ x y, x * u = y * u → x = y) ∧ ∀ other : TermKey, other.IsNormal sig →
      L (I.keyAt 0 other) = if other = key then u else 0

end Interpretation

section Keys

variable {κ ρ : Type} [RealScalar ρ] [Scalar κ ρ] [ExactScalar κ]

/-! Reading off coordinates -/

/-- All Pauli operators. -/
def Pauli.all : List Pauli :=
  [i, x, y, z]

namespace Element

/-- Adds up what becomes of an element between all Pauli operators of one qubit, behind one of
them. -/
noncomputable def select (k : ℕ) (p : Pauli) : Element (Fin 2) κ →ₗ[κ] Element (Fin 2) κ :=
  (Pauli.all.map fun s => LinearMap.mulLeftRight κ
    (onQubit k s.matrix * onQubit k p.matrix, onQubit k s.matrix)).sum

/-- The polynomial that an element makes of the function with the value one. -/
noncomputable def toLetters : Element (Fin 2) κ →ₗ[κ] Letters κ where
  toFun e := e (fun _ => 1) fun _ => 0
  map_add' _ _ := rfl
  map_smul' _ _ := rfl

end Element

/-- How often each letter occurs in words that stand at modes one after the other. -/
noncomputable def occurrences (start : ℕ) : List (List Ladder) → (ℕ × Bool →₀ ℕ)
  | [] => 0
  | word :: rest =>
    Finsupp.single (start, false) (word.count .creation) +
      Finsupp.single (start, true) (word.count .annihilation) + occurrences (start + 1) rest

/-- Reads off what stands in front of the element of a key with these Pauli operators and words. -/
noncomputable def coordinate (words : List (List Ladder)) :
    Dims → List Pauli → Element (Fin 2) κ →ₗ[κ] κ
  | start, [] => MvPolynomial.lcoeff κ (occurrences start.modes words) ∘ₗ Element.toLetters
  | start, p :: ps => coordinate words (start + ⟨1, 0⟩) ps ∘ₗ Element.select start.qubits p

end Keys

end SpinBoson
