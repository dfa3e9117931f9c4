import SpinBoson.Proofs.Coeff.Powers
import SpinBoson.Proofs.Coeff.Rest
import SpinBoson.Proofs.Coeff.Uniqueness

/-!
The meaning of coefficients without text: a polynomial in normal forms. Sums and products mean sums
and products, and a power or a function means what distributing leaves of it at the normal forms of
its operands. All steps of normalization keep the meaning where no divisor and no base means zero,
and the meaning of a normal form is its own polynomial.
-/
namespace SpinBoson.Coeff

open MvPolynomial

variable {κ ρ : Type} [RealScalar ρ] [Scalar κ ρ] [OrderKey κ] [ExactPower κ]

/-- Whether some settings with the tolerance zero lead to a normal form by themselves. -/
def NormalizesTo (e n : Coeff κ) : Prop :=
  ∃ s : Settings ρ, s.tolerance = 0 ∧ e.Settles s ∧ e.normalize s = .ok n

/-! Normal forms by their polynomials -/

/-- Whether a polynomial is that of a normal form. -/
def IsRepresented (p : MvPolynomial (Coeff κ) κ) : Prop :=
  ∃ n : Coeff κ, n.InNormalForm (0 : ρ) ∧ n.polynomial = p

open Classical in
/-- The normal form with a polynomial; zero if there is none. -/
noncomputable def form (p : MvPolynomial (Coeff κ) κ) : Coeff κ :=
  if h : IsRepresented p then h.choose else lit 0

theorem form_normal (p : MvPolynomial (Coeff κ) κ) : (form p).InNormalForm (0 : ρ) := by
  unfold form
  split
  · rename_i h
    exact h.choose_spec.1
  · exact inNormalForm_lit 0 0

theorem IsRepresented.polynomial_form {p : MvPolynomial (Coeff κ) κ} (h : IsRepresented p) :
    (form p).polynomial = p := by
  rw [form, dif_pos h]
  exact h.choose_spec.2

section Keys

variable [Nontrivial κ] (hkey : Function.Injective (orderKey (κ := κ)))

include hkey

theorem form_polynomial {n : Coeff κ} (hn : n.InNormalForm (0 : ρ)) : form n.polynomial = n :=
  eq_of_polynomial hkey (form_normal _) hn (IsRepresented.polynomial_form ⟨n, hn, rfl⟩)

theorem form_C (z : κ) : form (C z) = lit z :=
  form_polynomial hkey (inNormalForm_lit 0 z)

end Keys

/-! Meanings -/

/-- The meaning of a power. -/
noncomputable def powerMeaning (p q : MvPolynomial (Coeff κ) κ) : MvPolynomial (Coeff κ) κ :=
  (reducedPower (form p) (form q)).polynomial

/-- The meaning of an operation; a quotient is a product with a power. -/
noncomputable def Op.meaning (op : Op) (p q : MvPolynomial (Coeff κ) κ) :
    MvPolynomial (Coeff κ) κ :=
  match op with
  | .add => p + q
  | .sub => p - q
  | .mul => p * q
  | .div => p * powerMeaning q (C Scalar.minusOne)
  | .pow => powerMeaning p q

/-- The meaning of a coefficient; unread text has none. -/
noncomputable def meaning : Coeff κ → MvPolynomial (Coeff κ) κ
  | lit z => C z
  | var name => X (var name)
  | raw _ => 0
  | neg e => -e.meaning
  | bin op a b => op.meaning a.meaning b.meaning
  | app f e => (app f (form e.meaning)).distribute.polynomial

/-- The operand of a quotient or power that should not be zero. -/
def base? : Coeff κ → Option (Coeff κ)
  | div _ b => some b
  | pow a _ => some a
  | _ => none

/-- Whether no divisor and no base of a power means zero. -/
def IsProper (e : Coeff κ) : Prop :=
  e.AllNodes fun x => ∀ d ∈ x.base?, d.meaning ≠ 0

@[simp]
theorem isProper_lit (z : κ) : (lit z).IsProper := nofun

@[simp]
theorem isProper_neg {e : Coeff κ} : (neg e).IsProper ↔ e.IsProper :=
  and_iff_right nofun

@[simp]
theorem isProper_app {f : Func} {e : Coeff κ} : (app f e).IsProper ↔ e.IsProper :=
  and_iff_right nofun

@[simp]
theorem isProper_add {a b : Coeff κ} : (add a b).IsProper ↔ a.IsProper ∧ b.IsProper :=
  and_iff_right nofun

@[simp]
theorem isProper_sub {a b : Coeff κ} : (sub a b).IsProper ↔ a.IsProper ∧ b.IsProper :=
  and_iff_right nofun

@[simp]
theorem isProper_mul {a b : Coeff κ} : (mul a b).IsProper ↔ a.IsProper ∧ b.IsProper :=
  and_iff_right nofun

@[simp]
theorem isProper_div {a b : Coeff κ} :
    (div a b).IsProper ↔ a.IsProper ∧ b.IsProper ∧ b.meaning ≠ 0 :=
  ⟨fun h => ⟨h.2.1, h.2.2, h.1 b rfl⟩,
    fun ⟨ha, hb, hne⟩ => ⟨fun _ hd => Option.some.inj hd ▸ hne, ha, hb⟩⟩

@[simp]
theorem isProper_pow {a b : Coeff κ} :
    (pow a b).IsProper ↔ a.IsProper ∧ b.IsProper ∧ a.meaning ≠ 0 :=
  ⟨fun h => ⟨h.2.1, h.2.2, h.1 a rfl⟩,
    fun ⟨ha, hb, hne⟩ => ⟨fun _ hd => Option.some.inj hd ▸ hne, ha, hb⟩⟩

/-- Coefficients mean their meanings if they are proper. -/
noncomputable def proper : Reading κ (MvPolynomial (Coeff κ) κ) where
  Defined := IsProper
  number := meaning
  scalar := C
  defined_lit := isProper_lit
  number_lit _ := rfl
  defined_chain := by
    rintro op a b (rfl | rfl)
    · exact isProper_add
    · exact isProper_mul
  number_chain := by
    rintro op a b (rfl | rfl) _ _
    · exact List.sum_pair.symm
    · exact List.prod_pair.symm

theorem keeps_iff {e e' : Coeff κ} :
    proper.Keeps e e' ↔ (e.IsProper → e'.IsProper ∧ e'.meaning = e.meaning) :=
  Iff.rfl

theorem keeps_congruence : Congruence (proper (κ := κ)).Keeps where
  refl := .refl
  trans := .trans
  neg he h := by
    obtain ⟨hd, heq⟩ := he (isProper_neg.mp h)
    exact ⟨isProper_neg.mpr hd, congrArg (- ·) heq⟩
  bin {op a a' b b'} ha hb h := by
    obtain ⟨hda, heqa⟩ := keeps_iff.mp ha h.2.1
    obtain ⟨hdb, heqb⟩ := keeps_iff.mp hb h.2.2
    refine ⟨?_, congrArg₂ op.meaning heqa heqb⟩
    cases op with
    | add | sub | mul => exact ⟨nofun, hda, hdb⟩
    | div => exact isProper_div.mpr ⟨hda, hdb, heqb ▸ (isProper_div.mp h).2.2⟩
    | pow => exact isProper_pow.mpr ⟨hda, hdb, heqa ▸ (isProper_pow.mp h).2.2⟩
  app {f e e'} he h := by
    obtain ⟨hd, heq⟩ := keeps_iff.mp he (isProper_app.mp h)
    refine ⟨isProper_app.mpr hd, ?_⟩
    change (app f (form e'.meaning)).distribute.polynomial = _
    rw [heq]
    rfl

/-! All meanings are represented -/

theorem isRepresented_chain {op : Op} (hop : op.IsChain) {m n : Coeff κ}
    (hm : m.InNormalForm (0 : ρ)) (hn : n.InNormalForm (0 : ρ)) :
    IsRepresented (op.total [m.polynomial, n.polynomial]) := by
  have hself {s : Settings ρ} (hs : s.tolerance = 0) {n : Coeff κ}
      (hn : n.InNormalForm (0 : ρ)) : n.normalForm s = n :=
    (normalize_eq (normalize_of_inNormalForm (hs ▸ hn) (beq_self_eq_true n))).symm
  have hfree : (bin op m n).TextFree := textFree_bin.mpr ⟨hm.textFree, hn.textFree⟩
  obtain ⟨k, hk, hruns⟩ := exists_normal (⟨0, 0⟩ : Settings ρ) hfree.readable
  obtain ⟨cap, hrun, -⟩ := hruns.exists
  refine ⟨k, hk, ?_⟩
  rw [normalize_eq hrun, (substitutes_normalForm rfl).chain hop, hself rfl hm, hself rfl hn]

theorem IsRepresented.add {p q : MvPolynomial (Coeff κ) κ} (hp : IsRepresented p)
    (hq : IsRepresented q) : IsRepresented (p + q) := by
  obtain ⟨m, hm, rfl⟩ := hp
  obtain ⟨n, hn, rfl⟩ := hq
  simpa [Op.total] using isRepresented_chain (.inl rfl) hm hn

theorem IsRepresented.mul {p q : MvPolynomial (Coeff κ) κ} (hp : IsRepresented p)
    (hq : IsRepresented q) : IsRepresented (p * q) := by
  obtain ⟨m, hm, rfl⟩ := hp
  obtain ⟨n, hn, rfl⟩ := hq
  simpa [Op.total] using isRepresented_chain (.inr rfl) hm hn

theorem isRepresented_C (z : κ) : IsRepresented (C z : MvPolynomial (Coeff κ) κ) :=
  ⟨lit z, inNormalForm_lit 0 z, rfl⟩

theorem IsRepresented.neg {p : MvPolynomial (Coeff κ) κ} (hp : IsRepresented p) :
    IsRepresented (-p) := by
  have h := (isRepresented_C (-1)).mul hp
  rwa [map_neg, map_one, neg_one_mul] at h

theorem isRepresented_power (p q : MvPolynomial (Coeff κ) κ) : IsRepresented (powerMeaning p q) :=
  ⟨_, inNormalForm_reducedPower (form_normal p) (form_normal q), rfl⟩

theorem isRepresented_meaning (e : Coeff κ) : IsRepresented e.meaning := by
  induction e with
  | lit z => exact isRepresented_C z
  | var name => exact ⟨var name, ⟨nofun, rfl, trivial, rfl⟩, rfl⟩
  | raw text => exact ⟨lit 0, inNormalForm_lit 0 0, map_zero C⟩
  | neg e ih => exact ih.neg
  | app f e _ => exact ⟨_, inNormalForm_distribute_app (form_normal _), rfl⟩
  | bin op a b iha ihb =>
    cases op with
    | add => exact iha.add ihb
    | sub =>
      have h := iha.add ihb.neg
      rwa [← sub_eq_add_neg] at h
    | mul => exact iha.mul ihb
    | div => exact iha.mul (isRepresented_power _ _)
    | pow => exact isRepresented_power _ _

/-! Distributing -/

section Distributing

variable [Nontrivial κ] (hkey : Function.Injective (orderKey (κ := κ)))

include hkey

theorem powerMeaning_literals {x y : κ} (h : Scalar.dividesByZero x y = false) :
    powerMeaning (C x) (C y) = C (Scalar.power x y) := by
  rw [powerMeaning, form_C hkey, form_C hkey]
  change (distributePower (lit x) (lit y)).polynomial = _
  rw [distributePower_lit h, polynomial]

theorem powerMeaning_one {p : MvPolynomial (Coeff κ) κ} (hp : IsRepresented p) :
    powerMeaning p (C 1) = p := by
  rw [powerMeaning, form_C hkey, reducedPower_one (form_normal p), hp.polynomial_form]

theorem powerMeaning_zero (p : MvPolynomial (Coeff κ) κ) : powerMeaning p (C 0) = C 1 := by
  rw [powerMeaning, form_C hkey, reducedPower_zero, polynomial]

theorem powerMeaning_powerMeaning {p : MvPolynomial (Coeff κ) κ} {x y : κ}
    (hy : Scalar.isInteger y = true) (hne : powerMeaning p (C x) ≠ 0) :
    powerMeaning (powerMeaning p (C x)) (C y) = powerMeaning p (C (x * y)) := by
  have hnormal : (reducedPower (form p) (lit x)).InNormalForm (0 : ρ) :=
    inNormalForm_reducedPower (form_normal p) (inNormalForm_lit 0 x)
  simp only [powerMeaning, form_C hkey] at hne ⊢
  rw [form_polynomial hkey hnormal, reducedPower_reducedPower hy]
  intro hzero
  rw [hzero] at hne
  exact hne (map_zero C)

/-- Meanings have the laws that distributing relies on. -/
noncomputable def properArithmetic : Arithmetic κ (MvPolynomial (Coeff κ) κ) where
  toReading := proper
  power := powerMeaning
  Permits p _ := p ≠ 0
  defined_neg := isProper_neg
  number_neg _ := rfl
  defined_sub := isProper_sub
  number_sub _ _ := rfl
  defined_div := isProper_div
  number_div _ := rfl
  defined_pow := isProper_pow
  number_pow _ := rfl
  number_app_lit f z := by
    change (app f (form (C z))).distribute.polynomial = _
    rw [form_C hkey]
    rfl
  permits_of_ne _ hp := hp
  power_scalar := powerMeaning_literals hkey
  power_one {e} _ := powerMeaning_one hkey (isRepresented_meaning e)
  power_zero p := (powerMeaning_zero hkey p).trans (map_one C)
  power_power hy hp hne := ⟨hp, (powerMeaning_powerMeaning hkey hy hne).symm⟩

end Distributing

/-! The whole way -/

theorem keeps_rewrite {f : Coeff κ → Coeff κ} (hf : ∀ e, proper.Keeps e (f e)) (e : Coeff κ) :
    proper.Keeps e (e.rewrite f) :=
  up_related keeps_congruence (fun _ _ h => Except.ok.inj h ▸ hf _) (up_ofCoeff "" f e)

theorem keeps_iterate {f : Coeff κ → Coeff κ} (hf : ∀ e, proper.Keeps e (f e)) (n : Nat)
    (e : Coeff κ) : proper.Keeps e (f^[n] e) := by
  induction n generalizing e with
  | zero => exact .refl _
  | succ n ih => exact (hf e).trans (ih _)

omit [OrderKey κ] [ExactPower κ] in
theorem rewrite_readOr_of_textFree {e : Coeff κ} (h : e.TextFree) : e.rewrite readOr = e :=
  (up_readOr (up_readRaw_of_textFree h)).symm

omit [ExactPower κ] in
theorem textFree_fullRound (s : Settings ρ) {e : Coeff κ} (h : e.TextFree) :
    (fullRound s e).TextFree := by
  have iterate {f : Coeff κ → Coeff κ} (hf : ∀ e : Coeff κ, e.TextFree → (f e).TextFree)
      (n : Nat) {e : Coeff κ} (h : e.TextFree) : ((rewrite f)^[n] e).TextFree :=
    Function.Iterate.rec (fun e : Coeff κ => e.TextFree) h (fun _ => textFree_rewrite hf) n
  simp only [fullRound, Function.comp_apply, rewrite_readOr_of_textFree h]
  exact iterate (fun _ => textFree_collect s.tolerance) _
    (iterate (fun _ => textFree_sortChain) _ (iterate (fun _ => textFree_distribute) _ h))

omit [OrderKey κ] in
/-- A quotient that distributing leaves alone has a zero divisor. -/
theorem distributeQuotient_eq {a b : Coeff κ} (h : distributeQuotient a b = div a b) :
    b = lit 0 := by
  unfold distributeQuotient at h
  split at h
  · split at h
    · rename_i hy
      rw [eq_of_beq hy]
    · split at h <;> cases h
  · cases h
  · cases h

section Normalizing

variable [Nontrivial κ] (hkey : Function.Injective (orderKey (κ := κ))) {s : Settings ρ}

include hkey

theorem keeps_fullRound (hs : s.tolerance = 0) {e : Coeff κ} (h : e.TextFree) :
    proper.Keeps e (fullRound s e) := by
  let n := Pass.iterations s.maxIterations
  have hdistribute (e : Coeff κ) : proper.Keeps e ((rewrite distribute)^[n] e) :=
    keeps_iterate (keeps_rewrite (properArithmetic hkey).keeps_distribute) n e
  have hsort (e : Coeff κ) : proper.Keeps e ((rewrite sortChain)^[n] e) :=
    keeps_iterate (keeps_rewrite proper.keeps_sortChain) n e
  have hcollect (e : Coeff κ) : proper.Keeps e ((rewrite (collect s.tolerance))^[n] e) := by
    rw [hs]
    exact keeps_iterate (keeps_rewrite proper.keeps_collect) n e
  simp only [fullRound, Function.comp_apply, rewrite_readOr_of_textFree h]
  exact (hdistribute e).trans ((hsort _).trans (hcollect _))

/-- Normalization keeps what a coefficient means. -/
theorem keeps_normalForm (hs : s.tolerance = 0) {e : Coeff κ} (h : e.TextFree) :
    proper.Keeps e (e.normalForm s) := by
  unfold normalForm
  generalize Pass.iterations s.maxIterations = n
  induction n generalizing e with
  | zero => exact .refl e
  | succ n ih => exact (keeps_fullRound hkey hs h).trans (ih (textFree_fullRound s h))

/-- A proper normal form means its own polynomial. -/
theorem meaning_of_normal {n : Coeff κ} (hn : n.InNormalForm (0 : ρ)) (h : n.IsProper) :
    n.meaning = n.polynomial := by
  induction n with
  | lit | var => rfl
  | raw text => exact absurd rfl (hn.textFree text)
  | neg e ih =>
    have hroot := hn.distributed.1
    cases e <;> cases hroot
  | app f e ih =>
    rw [meaning, ih hn.argument (isProper_app.mp h), form_polynomial hkey hn.argument,
      hn.distributed.1]
  | bin op a b iha ihb =>
    obtain ⟨hna, hnb⟩ := hn.operands
    have ha := iha hna h.2.1
    have hb := ihb hnb h.2.2
    have hroot := hn.distributed.1
    rw [meaning, ha, hb]
    cases op with
    | add | mul => rfl
    | sub => cases hroot
    | div =>
      have hdivisor := (isProper_div.mp h).2.2
      rw [distributeQuotient_eq hroot] at hdivisor
      exact absurd (map_zero C) hdivisor
    | pow =>
      change powerMeaning _ _ = _
      rw [powerMeaning, form_polynomial hkey hna, form_polynomial hkey hnb,
        reducedPower_of_fixed hroot]

/-- What does not normalize to zero does not mean zero. -/
theorem meaning_ne_zero {e : Coeff κ} (hfree : e.TextFree) (hproper : e.IsProper)
    (h : ¬ e.NormalizesTo (lit 0)) : e.meaning ≠ 0 := by
  obtain ⟨n, hn, hruns⟩ := exists_normal (⟨0, 0⟩ : Settings ρ) hfree.readable
  obtain ⟨cap, hrun, hsettles⟩ := hruns.exists
  have hkeeps : proper.Keeps e n := normalize_eq hrun ▸ keeps_normalForm hkey rfl hfree
  obtain ⟨hproper', hmeaning⟩ := keeps_iff.mp hkeeps hproper
  intro hzero
  rw [hzero, meaning_of_normal hkey hn hproper'] at hmeaning
  have heq : n = lit 0 :=
    eq_of_polynomial hkey hn (inNormalForm_lit 0 0) (hmeaning.trans (map_zero C).symm)
  exact h ⟨_, rfl, hsettles, heq ▸ hrun⟩

/-- A coefficient is proper if none of its divisors and bases normalizes to zero. -/
theorem isProper_of_bases {e : Coeff κ} (hfree : e.TextFree)
    (h : e.AllNodes fun x => ∀ d ∈ x.base?, ¬ d.NormalizesTo (lit 0)) : e.IsProper := by
  induction e with
  | lit | var | raw => nofun
  | neg e ih => exact isProper_neg.mpr (ih hfree.2 h.2)
  | app f e ih => exact isProper_app.mpr (ih hfree.2 h.2)
  | bin op a b iha ihb =>
    have ha := iha hfree.2.1 h.2.1
    have hb := ihb hfree.2.2 h.2.2
    cases op with
    | add | sub | mul => exact ⟨nofun, ha, hb⟩
    | div => exact isProper_div.mpr ⟨ha, hb, meaning_ne_zero hkey hfree.2.2 hb (h.1 b rfl)⟩
    | pow => exact isProper_pow.mpr ⟨ha, hb, meaning_ne_zero hkey hfree.2.1 ha (h.1 a rfl)⟩

end Normalizing

end SpinBoson.Coeff
