import Mathlib.Logic.Relation
import SpinBoson.Proofs.Canonical.Readable
import SpinBoson.Proofs.ClosedForms
import SpinBoson.Proofs.Coeff.Meaning

/-!
The normal form is unique up to the laws of commutative rings. Coefficients that these laws turn
into one another, at whatever places, have the same meaning, so one normal form, if nothing in them
is divided by zero and no power of zero is taken.
-/
namespace SpinBoson.Coeff

variable {κ ρ : Type} [RealScalar ρ] [Scalar κ ρ] {a b : Coeff κ}

/-- One use of a law of commutative rings, at some place of a coefficient. -/
inductive RingStep : Coeff κ → Coeff κ → Prop
  | swap {op : Op} (hop : op.IsChain) (a b : Coeff κ) : RingStep (bin op a b) (bin op b a)
  | associate {op : Op} (hop : op.IsChain) (a b c : Coeff κ) :
      RingStep (bin op (bin op a b) c) (bin op a (bin op b c))
  | expand (a b c : Coeff κ) : RingStep (mul (add a b) c) (add (mul a c) (mul b c))
  | difference (a b : Coeff κ) : RingStep (sub a b) (add a (mul minusOne b))
  | opposite (a : Coeff κ) : RingStep (neg a) (mul minusOne a)
  | foldSum (x y : κ) : RingStep (add (lit x) (lit y)) (lit (x + y))
  | foldProduct (x y : κ) : RingStep (mul (lit x) (lit y)) (lit (x * y))
  | left (op : Op) {a a' : Coeff κ} (b : Coeff κ) (h : RingStep a a') :
      RingStep (bin op a b) (bin op a' b)
  | right (op : Op) (a : Coeff κ) {b b' : Coeff κ} (h : RingStep b b') :
      RingStep (bin op a b) (bin op a b')
  | under {a a' : Coeff κ} (h : RingStep a a') : RingStep (neg a) (neg a')
  | inside (f : Func) {a a' : Coeff κ} (h : RingStep a a') : RingStep (app f a) (app f a')

/-- Whether the laws of commutative rings turn one coefficient into another. -/
def RingEquivalent : Coeff κ → Coeff κ → Prop :=
  Relation.EqvGen RingStep

/-! What the laws keep -/

theorem RingStep.readable (h : RingStep a b) : a.Readable ↔ b.Readable := by
  have hneg (a : Coeff κ) : (neg a).Readable ↔ a.Readable := and_iff_right nofun
  have happ (f : Func) (a : Coeff κ) : (app f a).Readable ↔ a.Readable := and_iff_right nofun
  induction h with
  | swap hop a b => rw [readable_bin, readable_bin, and_comm]
  | associate hop a b c => simp only [readable_bin, and_assoc]
  | expand a b c =>
    simp only [readable_bin]
    tauto
  | difference a b => simp only [readable_bin, minusOne, readable_lit, true_and]
  | opposite a => simp only [hneg, readable_bin, minusOne, readable_lit, true_and]
  | foldSum x y | foldProduct x y => simp only [readable_bin, readable_lit, true_and]
  | left op b h ih | right op a h ih => simp only [readable_bin, ih]
  | under h ih => simp only [hneg, ih]
  | inside f h ih => simp only [happ, ih]

/-- The laws hold as well between the coefficients that are read. -/
theorem RingStep.read (h : RingStep a b) : RingStep (a.rewrite readOr) (b.rewrite readOr) := by
  induction h with
  | swap hop a b => exact .swap hop _ _
  | associate hop a b c => exact .associate hop _ _ _
  | expand a b c => exact .expand _ _ _
  | difference a b => exact .difference _ _
  | opposite a => exact .opposite _
  | foldSum x y => exact .foldSum x y
  | foldProduct x y => exact .foldProduct x y
  | left op b h ih => exact .left op _ ih
  | right op a h ih => exact .right op _ ih
  | under h ih => exact .under ih
  | inside f h ih => exact .inside f ih

section Meaning

variable [OrderKey κ] [ExactPower κ]

theorem RingStep.meaning_eq (h : RingStep a b) : b.meaning = a.meaning := by
  have hone : (minusOne : Coeff κ).meaning = -1 := proper.number_minusOne
  induction h with
  | swap hop a b =>
    rcases hop with rfl | rfl
    · exact add_comm _ _
    · exact mul_comm _ _
  | associate hop a b c =>
    rcases hop with rfl | rfl
    · exact (add_assoc _ _ _).symm
    · exact (mul_assoc _ _ _).symm
  | expand a b c => exact (add_mul _ _ _).symm
  | difference a b =>
    change a.meaning + minusOne.meaning * b.meaning = a.meaning - b.meaning
    rw [hone, neg_one_mul, sub_eq_add_neg]
  | opposite a =>
    change minusOne.meaning * a.meaning = -a.meaning
    rw [hone, neg_one_mul]
  | foldSum x y => exact map_add MvPolynomial.C x y
  | foldProduct x y => exact map_mul MvPolynomial.C x y
  | left op b h ih | right op a h ih | under h ih | inside f h ih => simp only [meaning, ih]

theorem RingStep.isProper (h : RingStep a b) : a.IsProper ↔ b.IsProper := by
  induction h with
  | swap hop a b => rcases hop with rfl | rfl <;> simp only [isProper_add, isProper_mul, and_comm]
  | associate hop a b c =>
    rcases hop with rfl | rfl <;> simp only [isProper_add, isProper_mul, and_assoc]
  | expand a b c =>
    simp only [isProper_add, isProper_mul]
    tauto
  | difference a b => simp [minusOne]
  | opposite a => simp [minusOne]
  | foldSum x y | foldProduct x y => simp
  | left op b h ih => cases op <;> simp [ih, h.meaning_eq]
  | right op a h ih => cases op <;> simp [ih, h.meaning_eq]
  | under h ih => simp [ih]
  | inside f h ih => simp [ih]

end Meaning

theorem RingEquivalent.invariant {α : Type} {f : Coeff κ → α}
    (hf : ∀ a b, RingStep a b → f a = f b) (h : RingEquivalent a b) : f a = f b := by
  induction h with
  | rel a b h => exact hf a b h
  | refl a => rfl
  | symm a b _ ih => exact ih.symm
  | trans a b c _ _ ihab ihbc => exact ihab.trans ihbc

/-! Normal forms -/

/-- Whether no divisor and no base of a power normalizes to zero, in the text of a coefficient
neither. -/
def NonzeroBases [OrderKey κ] (e : Coeff κ) : Prop :=
  (e.rewrite readOr).AllNodes fun x => ∀ d ∈ x.base?, ¬ d.NormalizesTo (lit 0)

theorem textFree_read {e : Coeff κ} (h : e.Readable) : (e.rewrite readOr).TextFree := by
  obtain ⟨e', he', hfree⟩ := up_readRaw h
  exact up_readOr he' ▸ hfree

/-- Text may as well be read before normalization. -/
theorem normalForm_read [OrderKey κ] (s : Settings ρ) {e : Coeff κ} (h : e.Readable) :
    (e.rewrite readOr).normalForm s = e.normalForm s := by
  have hround : fullRound s (e.rewrite readOr) = fullRound s e := by
    simp only [fullRound, Function.comp_apply, rewrite_readOr_of_textFree (textFree_read h)]
  obtain ⟨n, hn⟩ := Nat.exists_eq_succ_of_ne_zero (Pass.iterations_pos s.maxIterations).ne'
  simp only [normalForm, hn, Function.iterate_succ_apply, hround]

variable [OrderKey κ] [ExactPower κ] [Nontrivial κ] {s : Settings ρ}

/-- The polynomial of the normal form is what the coefficient means. -/
theorem polynomial_of_normalize (hs : s.tolerance = 0)
    (hkey : Function.Injective (orderKey (κ := κ))) {e n : Coeff κ} (hread : e.Readable)
    (hproper : (e.rewrite readOr).IsProper) (hrun : e.normalize s = .ok n)
    (hn : n.InNormalForm (0 : ρ)) : n.polynomial = (e.rewrite readOr).meaning := by
  have hkeeps : proper.Keeps (e.rewrite readOr) n := by
    rw [normalize_eq hrun, ← normalForm_read s hread]
    exact keeps_normalForm hkey hs (textFree_read hread)
  obtain ⟨hproper', hmeaning⟩ := keeps_iff.mp hkeeps hproper
  rw [← meaning_of_normal hkey hn hproper', hmeaning]

/--
Coefficients that the laws of commutative rings turn into one another have the same normal form, if
there is one: with readable text there is, and without there is none for either. Their divisors and
bases are the same but for those laws.
-/
theorem normalize_eq_of_ringLaws (hs : s.tolerance = 0)
    (hkey : Function.Injective (orderKey (κ := κ))) (hlaws : RingEquivalent a b)
    (hbases : a.NonzeroBases) (hconva : a.Settles s) (hconvb : b.Settles s) :
    (∀ n, a.normalize s = .ok n ↔ b.normalize s = .ok n) ∧
      (a.Readable → ∃ n, a.normalize s = .ok n) := by
  have hread : a.Readable = b.Readable :=
    hlaws.invariant fun _ _ h => propext h.readable
  have hmeaning : (a.rewrite readOr).meaning = (b.rewrite readOr).meaning :=
    hlaws.invariant (f := fun e => (e.rewrite readOr).meaning) fun _ _ h => h.read.meaning_eq.symm
  have hproper : (a.rewrite readOr).IsProper = (b.rewrite readOr).IsProper :=
    hlaws.invariant (f := fun e => (e.rewrite readOr).IsProper) fun _ _ h =>
      propext h.read.isProper
  have hmain (hreada : a.Readable) : ∃ n, a.normalize s = .ok n ∧ b.normalize s = .ok n := by
    have hreadb : b.Readable := hread ▸ hreada
    have hpropera := isProper_of_bases hkey (textFree_read hreada) hbases
    obtain ⟨m, hm, hstablem, -⟩ := normalize_settled hreada hconva
    obtain ⟨n, hn, hstablen, -⟩ := normalize_settled hreadb hconvb
    have hnormalm : m.InNormalForm (0 : ρ) := hs ▸ hstablem.normal
    have hnormaln : n.InNormalForm (0 : ρ) := hs ▸ hstablen.normal
    have heq : m = n := eq_of_polynomial hkey hnormalm hnormaln <| by
      rw [polynomial_of_normalize hs hkey hreada hpropera hm hnormalm, hmeaning,
        polynomial_of_normalize hs hkey hreadb (hproper ▸ hpropera) hn hnormaln]
    exact ⟨m, hm, heq ▸ hn⟩
  refine ⟨fun n => ⟨fun hn => ?_, fun hn => ?_⟩, fun hreada => ?_⟩
  · obtain ⟨m, hm, hm'⟩ := hmain (readable_of_normalize hn)
    rwa [Except.ok.inj (hn.symm.trans hm)]
  · obtain ⟨m, hm, hm'⟩ := hmain (hread ▸ readable_of_normalize hn)
    rwa [Except.ok.inj (hn.symm.trans hm')]
  · obtain ⟨m, hm, -⟩ := hmain hreada
    exact ⟨m, hm⟩

/-- A product with a difference, divided by a variable. -/
def quotient : Coeff ClosedNumber :=
  div (mul (sub (var "x") (var "y")) (var "z")) (var "w")

/-- The sum of its products, the last one first, divided by the same. -/
noncomputable def expandedQuotient : Coeff ClosedNumber :=
  div (add (mul (mul minusOne (var "y")) (var "z")) (mul (var "x") (var "z"))) (var "w")

theorem normalize_eq_of_ringLaws_quotient :
    ∃ (s : Settings ClosedReal) (n : Coeff ClosedNumber),
      quotient.normalize s = .ok n ∧ expandedQuotient.normalize s = .ok n := by
  have hlaws : RingEquivalent quotient expandedQuotient :=
    .trans _ _ _ (.rel _ _ (.left .div _ (.left .mul _ (.difference _ _))))
      (.trans _ _ _ (.rel _ _ (.left .div _ (.expand _ _ _)))
        (.rel _ _ (.left .div _ (.swap (.inl rfl) _ _))))
  have hread : quotient.Readable := by
    simp [quotient, Readable, AllNodes]
  have hread' : expandedQuotient.Readable := by
    simp [expandedQuotient, minusOne, Readable, AllNodes]
  have hbase : ¬ (var "w" : Coeff ClosedNumber).NormalizesTo (lit 0) := by
    rintro ⟨s, -, -, hrun⟩
    have hnormal : (var "w" : Coeff ClosedNumber).InNormalForm s.tolerance :=
      ⟨fun _ h => (by cases h), rfl, trivial, rfl⟩
    rw [normalize_of_inNormalForm hnormal (beq_self_eq_true _)] at hrun
    cases hrun
  have hnone {e : Coeff ClosedNumber} (he : e.base? = none) :
      ∀ d ∈ e.base?, ¬ d.NormalizesTo (lit 0) := by
    simp [he]
  have hbases : quotient.NonzeroBases :=
    ⟨fun d hd => Option.some.inj hd ▸ hbase,
      ⟨hnone rfl, ⟨hnone rfl, hnone rfl, hnone rfl⟩, hnone rfl⟩, hnone rfl⟩
  have hkey : Function.Injective (orderKey (κ := ClosedNumber)) := fun c d h =>
    ClosedNumber.key_injective (Prod.mk.inj h).2
  obtain ⟨_, -, hruns⟩ := exists_normal (⟨0, 0⟩ : Settings ClosedReal) hread
  obtain ⟨_, -, hruns'⟩ := exists_normal (⟨0, 0⟩ : Settings ClosedReal) hread'
  obtain ⟨cap, hconv, hconv'⟩ := (hruns.and hruns').exists
  obtain ⟨hiff, hexists⟩ := normalize_eq_of_ringLaws rfl hkey hlaws hbases hconv.2 hconv'.2
  obtain ⟨n, hn⟩ := hexists hread
  exact ⟨_, n, hn, (hiff n).mp hn⟩

end SpinBoson.Coeff
