import SpinBoson.Proofs.Coeff.Parsing
import SpinBoson.Proofs.Coeff.Scanning
import SpinBoson.Proofs.ComplexDoubles
import SpinBoson.Scalar.Elementary

/-!
Reading the text of a coefficient gives the coefficient back, with the complex literals spelled out.
Literals are written by their parts, which are doubles; what else their type computes is not looked at.
-/
namespace SpinBoson

/-- Complex numbers with doubles as parts: equal parts make equal numbers. -/
class DoubleParts (κ : Type) [Scalar κ Double] : Prop extends PartialEquivBEq κ where
  ofParts_congr : ∀ {x x' y y' : Double}, (x == x') = true → (y == y') = true →
    (Scalar.ofParts x y == (Scalar.ofParts x' y' : κ)) = true
  neg_ofReal : ∀ {x : Double}, x.isFinite = true →
    (-Scalar.ofReal x == (Scalar.ofReal (-x) : κ)) = true

instance : DoubleParts ComplexDouble where
  ofParts_congr hx hy := ComplexDouble.beq_iff.mpr ⟨hx, hy⟩
  neg_ofReal {x} hx := by
    have hself : (x == x) = true := Double.beq_iff.mpr (Double.compare_self (Double.ne_notANumber hx))
    have hzero : (-0 == (0 : Double)) = true := by decide +kernel
    exact ComplexDouble.beq_iff.mpr ⟨Double.neg_beq_neg hx hself, hzero⟩

namespace Phrase

/-! Phrases for what is written -/

def asUnary (p : Phrase .primary) : Phrase .unary :=
  .power (.primary p)

def asExpr (u : Phrase .unary) : Phrase .expr :=
  .term (.unary u)

/-- An operation on two operands that need no parentheses. -/
def joined (a b : Phrase .primary) : Coeff.Op → Phrase .expr
  | .add => .sum a.asUnary.asExpr .plus (.unary b.asUnary)
  | .sub => .sum a.asUnary.asExpr .minus (.unary b.asUnary)
  | .mul => .term (.product (.unary a.asUnary) .star b.asUnary)
  | .div => .term (.product (.unary a.asUnary) .slash b.asUnary)
  | .pow => asExpr (.power (.raised a .stars b.asUnary))

theorem tokens_joined (a b : Phrase .primary) (op : Coeff.Op) :
    (a.joined b op).tokens = a.tokens ++ op.token :: b.tokens := by
  cases op <;> rfl

theorem tree_joined {κ ρ : Type} [RealScalar ρ] [Scalar κ ρ] (a b : Phrase .primary)
    (op : Coeff.Op) : (a.joined b op).tree = .bin op (a.tree : Coeff κ) b.tree := by
  cases op <;> rfl

end Phrase

namespace Coeff

open Phrase Lexeme

/-! Spelled out literals -/

section

variable {κ ρ : Type} [RealScalar ρ] [Scalar κ ρ]

/-- The arithmetic that the text of a literal stands for. -/
def spelledLit (z : κ) : Coeff κ :=
  let x := Scalar.re z
  let y := Scalar.im z
  if y == 0 then lit z
  else if x == 0 then mul (ofReal y) (lit Scalar.imag)
  else if y < 0 then sub (ofReal x) (mul (ofReal (RealScalar.abs y)) (lit Scalar.imag))
  else add (ofReal x) (mul (ofReal y) (lit Scalar.imag))

/-- A coefficient with its complex literals spelled out. -/
def spelled : Coeff κ → Coeff κ
  | lit z => spelledLit z
  | var name => var name
  | raw text => raw text
  | neg e => neg e.spelled
  | bin op a b => bin op a.spelled b.spelled
  | app f e => app f e.spelled

end

/-- Whether a name is read as a variable. -/
def IsName (name : String) : Prop :=
  (∃ c cs, name.toList = c :: cs ∧ (c.isAlpha = true ∨ c = '_') ∧
    ∀ d ∈ cs, d.isAlphanum = true ∨ d = '_') ∧ name ≠ "i" ∧ name ≠ "pi"

/-- Whether a double is finite and below the limit of whole numbers. -/
def InRange (x : Double) : Prop :=
  x.isFinite = true ∧ x.abs < 18446744073709551616

theorem InRange.abs {x : Double} (h : InRange x) : InRange x.abs := by
  refine ⟨Double.isFinite_abs h.1, ?_⟩
  rw [Double.abs_eq_self (Double.signBit_abs x)]
  exact h.2

/-- Whether a node is written as text that can be read. -/
def Writable : Coeff ComplexDouble → Prop
  | lit z => InRange z.re ∧ InRange z.im
  | var name => IsName name
  | raw _ => False
  | neg _ | bin _ _ _ | app _ _ => True

theorem spells_name {name : String} (h : IsName name) : Spells name.toList [.ident name] := by
  obtain ⟨⟨c, cs, hname, hc, hcs⟩, hi, hpi⟩ := h
  have hword := spells_word hname (by simpa [Token.isWordStart] using hc)
    fun d hd => by simpa [Token.isWordChar] using hcs d hd
  rwa [Token.ofWord, if_neg hi, if_neg hpi] at hword

theorem isName_func (f : Func) : IsName f.name := by
  have hletters : ∀ d ∈ f.name.toList, d.isAlpha = true := by
    rw [← List.all_eq_true]
    cases f <;> rfl
  obtain ⟨c, cs, hname⟩ : ∃ c cs, f.name.toList = c :: cs := by
    cases f <;> exact ⟨_, _, rfl⟩
  rw [hname, List.forall_mem_cons] at hletters
  refine ⟨⟨c, cs, hname, .inl hletters.1, fun d hd => .inl ?_⟩, ?_, ?_⟩
  · rw [Char.isAlphanum, hletters.2 d hd, Bool.true_or]
  · cases f <;> decide
  · cases f <;> decide

/-! Real literals -/

section Reals

variable {κ : Type} [Scalar κ Double] {x : Double}

theorem exists_number (hx : InRange x) (hback : x.ReadsBack) : ∃ n : Number,
    Spells x.numeral.positional.toList [n.token] ∧
      ∃ v : Double, (n.value : κ) = Scalar.ofReal v ∧ (v == x.abs) = true := by
  have hspells := spells_numeral hx.1 hx.2
  rw [Double.ReadsBack, Decimal.written] at hback
  rw [Decimal.token] at hspells
  split at hback
  · next hwhole =>
    rw [if_pos hwhole] at hspells
    exact ⟨.int _, hspells, _, rfl, hback⟩
  · next hwhole =>
    rw [if_neg hwhole] at hspells
    exact ⟨.float _, hspells, _, rfl, hback⟩

/-- The literal that a signed numeral is read as. Its imaginary part is a zero of either sign. -/
def IsReal (z : κ) (x : Double) : Prop :=
  ∀ y : Double, (y == 0) = true → (z == Scalar.ofParts x y) = true

variable [DoubleParts κ]

theorem IsReal.ofReal {v : Double} (h : (v == x) = true) : IsReal (Scalar.ofReal v : κ) x :=
  fun _ hy => DoubleParts.ofParts_congr h (Double.zero_beq hy).1

theorem exists_signed (hx : InRange x) (hback : x.ReadsBack) : ∃ u : Phrase .unary,
    Spells (floatText x.toFloat).toList u.tokens ∧ ∃ z : κ, u.tree = lit z ∧ IsReal z x := by
  obtain ⟨n, hspells, v, hv, habs⟩ := exists_number (κ := κ) hx hback
  rw [Double.floatText_eq hx.1]
  cases hsign : x.signBit with
  | false =>
    refine ⟨asUnary (.number n), hspells, _, congrArg lit hv, .ofReal ?_⟩
    rwa [Double.abs_eq_self hsign] at habs
  | true =>
    refine ⟨.minus (asUnary (.number n)), ?_, -Scalar.ofReal v, ?_, fun y hy => ?_⟩
    · rw [if_pos rfl, String.toList_append]
      exact hspells.minus
    · exact congrArg (fun z : κ => lit (-z)) hv
    · have hneg := Double.neg_beq_neg (Double.isFinite_abs hx.1) habs
      rw [Double.neg_abs hsign] at hneg
      have hfinite := Double.isFinite_of_beq (Double.isFinite_abs hx.1) habs
      exact PartialEquivBEq.trans (DoubleParts.neg_ofReal hfinite) (IsReal.ofReal hneg y hy)

end Reals

/-! All literals -/

section Literals

variable {κ : Type} [Scalar κ Double]

/-- Whether a number is made of doubles whose numerals can be read. -/
structure IsLegible (z : κ) : Prop where
  parts : Scalar.ofParts (Scalar.re z) (Scalar.im z) = z
  inRange : InRange (Scalar.re z) ∧ InRange (Scalar.im z)
  readsBack : (Scalar.re z).ReadsBack ∧ (Scalar.im z).ReadsBack

/-- Whether a node is written as text that is read as the same node. -/
def Legible : Coeff κ → Prop
  | lit z => IsLegible z
  | var name => IsName name
  | raw _ => False
  | neg _ | bin _ _ _ | app _ _ => True

variable {x : Double}

omit [Scalar κ Double] in
theorem beq_bin [BEq κ] {op : Op} {a a' b b' : Coeff κ} (ha : (a == a') = true)
    (hb : (b == b') = true) : (bin op a b == bin op a' b') = true :=
  bin_beq.mpr ⟨_, _, rfl, ha, hb⟩

variable [DoubleParts κ]

omit [DoubleParts κ] in
theorem beq_ofReal {u : Phrase .unary} {z : κ} (hu : u.tree = lit z)
    (hz : IsReal z x) : (u.tree == (ofReal x : Coeff κ)) = true := by
  rw [hu]
  exact lit_beq.mpr ⟨_, rfl, hz 0 rfl⟩

theorem spells_i : Spells ['i'] [.imag] := by
  have hword : "i".toList = ['i'] := rfl
  exact spells_word hword rfl nofun

/-- A multiple of the imaginary unit. -/
theorem exists_imaginary (hx : InRange x) (hback : x.ReadsBack) : ∃ t : Phrase .term,
    Spells ((floatText x.toFloat).toList ++ [' ', '*', ' ', 'i']) t.tokens ∧
      (t.tree == mul (ofReal x) (lit (Scalar.imag : κ))) = true := by
  obtain ⟨u, hspells, z, hu, hz⟩ := exists_signed (κ := κ) hx hback
  have himag : (lit Scalar.imag == (lit Scalar.imag : Coeff κ)) = true :=
    lit_beq.mpr ⟨_, rfl, DoubleParts.ofParts_congr rfl rfl⟩
  exact ⟨.product (.unary u) .star (asUnary .imag), hspells.operation .mul spells_i,
    beq_bin (beq_ofReal hu hz) himag⟩

/-- A real number and a multiple of the imaginary unit, with a sign between them. -/
theorem exists_sum {y : Double} (hx : InRange x) (hback : x.ReadsBack) (hy : InRange y)
    (hback' : y.ReadsBack) (sign : Sign .expr) : ∃ e : Phrase .expr,
      Spells ((floatText x.toFloat).toList ++ ' ' :: (sign.op.sign.toList ++
        ' ' :: ((floatText y.toFloat).toList ++ [' ', '*', ' ', 'i']))) e.tokens ∧
      (e.tree == bin sign.op (ofReal x) (mul (ofReal y) (lit (Scalar.imag : κ)))) = true := by
  obtain ⟨u, hspells, z, hu, hz⟩ := exists_signed (κ := κ) hx hback
  obtain ⟨t, hspells', ht⟩ := exists_imaginary (κ := κ) hy hback'
  refine ⟨.sum (asExpr u) sign t, ?_, beq_bin (beq_ofReal hu hz) ht⟩
  have htoken : sign.op.token = sign.token := by
    cases sign <;> rfl
  have hsum := hspells.operation sign.op hspells'
  rwa [htoken] at hsum

theorem spells_group {e : Phrase .expr} {cs : List Char} (h : Spells cs e.tokens) :
    Spells ('(' :: (cs ++ [')'])) (Phrase.group e).tokens :=
  h.closed.lparen

theorem exists_real {z : κ} (hz : IsLegible z) (hzero : (Scalar.im z == 0) = true) :
    ∃ p : Phrase .primary,
      Spells (if (Scalar.re z).signBit then s!"({floatText (Scalar.re z).toFloat})"
        else floatText (Scalar.re z).toFloat).toList p.tokens ∧ (p.tree == lit z) = true := by
  obtain ⟨hparts, ⟨hre, -⟩, hback, -⟩ := hz
  have hlit {w : κ} (hw : IsReal w (Scalar.re z)) : (lit w == lit z) = true := by
    have hbeq := hw _ hzero
    rw [hparts] at hbeq
    exact lit_beq.mpr ⟨z, rfl, hbeq⟩
  cases hsign : (Scalar.re z).signBit with
  | false =>
    obtain ⟨n, hspells, v, hv, habs⟩ := exists_number (κ := κ) hre hback
    refine ⟨.number n, ?_, ?_⟩
    · rw [if_neg (by decide), Double.floatText_eq hre.1, hsign]
      exact hspells
    · rw [Double.abs_eq_self hsign] at habs
      change (lit n.value == lit z) = true
      rw [hv]
      exact hlit (.ofReal habs)
  | true =>
    obtain ⟨u, hspells, w, hu, hw⟩ := exists_signed (κ := κ) hre hback
    refine ⟨.group (asExpr u), ?_, ?_⟩
    · rw [if_pos rfl]
      simpa [toString] using spells_group hspells
    · change (u.tree == lit z) = true
      rw [hu]
      exact hlit hw

theorem exists_lit {z : κ} (hz : IsLegible z) : ∃ p : Phrase .primary,
    Spells (Scalar.text z).toList p.tokens ∧ (p.tree == spelledLit z) = true := by
  obtain ⟨hre, him⟩ := hz.inRange
  obtain ⟨hback, hback'⟩ := hz.readsBack
  have htext : Scalar.text z =
      if Scalar.im z == 0 then
        if (Scalar.re z).signBit then s!"({floatText (Scalar.re z).toFloat})"
        else floatText (Scalar.re z).toFloat
      else if Scalar.re z == 0 then s!"({floatText (Scalar.im z).toFloat} * i)"
      else if Scalar.im z < 0 then
        s!"({floatText (Scalar.re z).toFloat} - {floatText (-Scalar.im z).toFloat} * i)"
      else s!"({floatText (Scalar.re z).toFloat} + {floatText (Scalar.im z).toFloat} * i)" := rfl
  have hspelled : spelledLit z =
      if Scalar.im z == 0 then lit z
      else if Scalar.re z == 0 then mul (ofReal (Scalar.im z)) (lit Scalar.imag)
      else if Scalar.im z < 0 then
        sub (ofReal (Scalar.re z)) (mul (ofReal (Scalar.im z).abs) (lit Scalar.imag))
      else add (ofReal (Scalar.re z)) (mul (ofReal (Scalar.im z)) (lit Scalar.imag)) := rfl
  rw [htext, hspelled]
  split
  · next hzero => exact exists_real hz hzero
  · split
    · obtain ⟨t, hspells, ht⟩ := exists_imaginary (κ := κ) him hback'
      refine ⟨.group (.term t), ?_, ht⟩
      simpa [toString] using spells_group (e := .term t) hspells
    · split
      · next hneg =>
        have hsign := Double.signBit_of_lt_zero him.1 hneg
        obtain ⟨e, hspells, he⟩ :=
          exists_sum (κ := κ) hre hback him.abs (hback'.abs him.1) .minus
        refine ⟨.group e, ?_, he⟩
        rw [← Double.abs_eq_neg hsign]
        simpa [toString, Sign.op, Op.sign] using spells_group hspells
      · obtain ⟨e, hspells, he⟩ := exists_sum (κ := κ) hre hback him hback' .plus
        refine ⟨.group e, ?_, he⟩
        simpa [toString, Sign.op, Op.sign] using spells_group hspells

end Literals

/-! All coefficients -/

theorem spells_call (f : Func) {e : Phrase .expr} {cs : List Char} (h : Spells cs e.tokens) :
    Spells (f.name.toList ++ '(' :: (cs ++ [')'])) (Phrase.call f e).tokens := by
  refine (spells_name (isName_func f)).append h.closed.lparen fun rest => ?_
  rintro c ⟨⟩
  exact ⟨rfl, by decide⟩

section

variable {κ : Type} [Scalar κ Double]

theorem text_neg {e : Coeff κ} (h : ∀ z, e ≠ lit z) :
    (neg e).text = s!"(-{e.text})" := by
  cases e with
  | lit z => exact absurd rfl (h z)
  | var | raw | neg | bin | app => rfl

variable [DoubleParts κ]

/-- Every coefficient is written as an operand, which is no number unless it is a literal. -/
theorem exists_primary {e : Coeff κ} (h : e.AllNodes Legible) :
    ∃ p : Phrase .primary, Spells e.text.toList p.tokens ∧ (p.tree == e.spelled) = true ∧
      ((∀ z, e ≠ lit z) → p.number? = none) := by
  induction e with
  | lit z =>
    obtain ⟨p, hspells, htree⟩ := exists_lit h
    exact ⟨p, hspells, htree, fun hne => absurd rfl (hne z)⟩
  | var name => exact ⟨.ident name, spells_name h, var_beq.mpr rfl, fun _ => rfl⟩
  | raw text => exact h.elim
  | neg e ih =>
    obtain ⟨p, hspells, htree, hnumber⟩ := ih h.2
    by_cases hlit : ∃ z, e = lit z
    · obtain ⟨z, rfl⟩ := hlit
      have hgroup : Spells _ (asExpr (.minus (asUnary (.group p.asUnary.asExpr)))).tokens :=
        (spells_group (e := p.asUnary.asExpr) hspells).minus
      refine ⟨.group (asExpr (.minus (asUnary (.group p.asUnary.asExpr)))), ?_,
        neg_beq.mpr ⟨_, rfl, htree⟩, fun _ => rfl⟩
      simpa [text, toString] using spells_group hgroup
    · have hne : ∀ z, e ≠ lit z := fun z hz => hlit ⟨z, hz⟩
      have hminus : Spells _ (asExpr (.minus p.asUnary)).tokens := hspells.minus
      refine ⟨.group (asExpr (.minus p.asUnary)), ?_, ?_, fun _ => rfl⟩
      · rw [text_neg hne]
        simpa [toString] using spells_group hminus
      · have hneg : ((Phrase.minus p.asUnary).tree : Coeff κ) = neg p.tree := by
          rw [tree, show p.asUnary.number? = none from hnumber hne]
          rfl
        change ((Phrase.minus p.asUnary).tree == neg e.spelled) = true
        rw [hneg]
        exact neg_beq.mpr ⟨_, rfl, htree⟩
  | bin op a b iha ihb =>
    obtain ⟨p, hspells, htree, -⟩ := iha h.2.1
    obtain ⟨q, hspells', htree', -⟩ := ihb h.2.2
    have hjoined := hspells.operation op hspells'
    rw [← tokens_joined] at hjoined
    refine ⟨.group (p.joined q op), ?_, ?_, fun _ => rfl⟩
    · simpa [text, toString] using spells_group hjoined
    · change ((p.joined q op).tree == bin op a.spelled b.spelled) = true
      rw [tree_joined]
      exact beq_bin htree htree'
  | app f e ih =>
    obtain ⟨p, hspells, htree, -⟩ := ih h.2
    refine ⟨.call f p.asUnary.asExpr, ?_, app_beq.mpr ⟨_, rfl, htree⟩, fun _ => rfl⟩
    simpa [text, toString] using spells_call f (e := p.asUnary.asExpr) hspells

/-- Legible text is read as the coefficient with its complex literals spelled out. -/
theorem exists_parse {e : Coeff κ} (h : e.AllNodes Legible) :
    ∃ e', parse e.text = .ok e' ∧ (e' == e.spelled) = true := by
  obtain ⟨p, hspells, htree, -⟩ := exists_primary h
  obtain ⟨placed, hscan, htokens⟩ := PlacedToken.exists_scan hspells
  refine ⟨p.tree, ?_, htree⟩
  rw [parse, hscan]
  exact ofTokens_phrase p.asUnary.asExpr htokens

end

theorem legible_of_writable {e : Coeff ComplexDouble} (h : e.AllNodes Writable)
    (hback : e.AllNodes fun x => ∀ z, x = lit z → z.re.ReadsBack ∧ z.im.ReadsBack) :
    e.AllNodes Legible := by
  induction e with
  | lit z => exact ⟨rfl, h, hback z rfl⟩
  | var | raw => exact h
  | neg e ih | app f e ih => exact ⟨trivial, ih h.2 hback.2⟩
  | bin op a b iha ihb => exact ⟨trivial, iha h.2.1 hback.2.1, ihb h.2.2 hback.2.2⟩

/--
Reading the text of a coefficient gives the coefficient with its complex literals spelled out,
provided that the numerals of its literals read back.
-/
theorem parse_text {e : Coeff ComplexDouble} (h : e.AllNodes Writable)
    (hback : e.AllNodes fun x => ∀ z, x = lit z → z.re.ReadsBack ∧ z.im.ReadsBack) :
    ∃ e', parse e.text = .ok e' ∧ (e' == e.spelled) = true :=
  exists_parse (legible_of_writable h hback)

theorem parse_text_complex :
    ∃ e', parse (sub (neg (ofReal 2)) (lit ⟨.ofFloat 1.5, -1⟩) : Coeff ComplexDouble).text =
        .ok e' ∧
      (e' == sub (neg (ofReal 2)) (sub (ofReal (.ofFloat 1.5))
        (mul (ofReal 1) (lit (Scalar.imag : ComplexDouble))))) = true := by
  have hrange : InRange 2 ∧ InRange 0 ∧ InRange (.ofFloat 1.5) ∧ InRange (-1) := by
    refine ⟨⟨rfl, ?_⟩, ⟨rfl, ?_⟩, ⟨rfl, ?_⟩, ⟨rfl, ?_⟩⟩ <;> decide +kernel
  have hreads : (2 : Double).ReadsBack ∧ (0 : Double).ReadsBack ∧
      (Double.ofFloat 1.5).ReadsBack ∧ (-1 : Double).ReadsBack := by
    unfold Double.ReadsBack
    decide +kernel
  have hwritable : (sub (neg (ofReal 2)) (lit ⟨.ofFloat 1.5, -1⟩)).AllNodes Writable :=
    ⟨trivial, ⟨trivial, hrange.1, hrange.2.1⟩, hrange.2.2⟩
  have hback : (sub (neg (ofReal 2)) (lit ⟨.ofFloat 1.5, -1⟩)).AllNodes fun x =>
      ∀ z : ComplexDouble, x = lit z → z.re.ReadsBack ∧ z.im.ReadsBack := by
    refine ⟨nofun, ⟨nofun, ?_⟩, ?_⟩
    · rintro z ⟨⟩
      exact ⟨hreads.1, hreads.2.1⟩
    · rintro z ⟨⟩
      exact hreads.2.2
  exact parse_text hwritable hback

end Coeff

end SpinBoson
