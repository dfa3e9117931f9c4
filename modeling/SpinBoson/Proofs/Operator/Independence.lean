import Mathlib
import SpinBoson.Proofs.Labels
import SpinBoson.Proofs.Operator.Keys
import SpinBoson.Proofs.Operator.TermSum

/-!
The elements of different keys in normal form are independent where for each key there is a linear
map that reads its number off any sum. For the matrices of spins there is one.
-/
namespace SpinBoson

/-! Pauli operators of one qubit -/

section Selection

variable {κ ρ : Type} [RealScalar ρ] [Scalar κ ρ] [ExactScalar κ]

/-- What a Pauli matrix becomes between equal Pauli matrices, summed over all of them. -/
theorem Pauli.sum_conjugates (r : Pauli) :
    (all.map fun s => s.matrix * r.matrix * s.matrix).sum =
      if r = i then (4 : κ) • (1 : Matrix (Fin 2) (Fin 2) κ) else 0 := by
  have hi : (Scalar.imag : κ) * Scalar.imag = -1 := ExactRing.imag_mul_imag
  have hfour : (1 : κ) + 1 + 1 + 1 = 4 := by norm_num
  cases r <;> ext m n <;> fin_cases m <;> fin_cases n <;>
    simp [all, matrix, hi, ← add_assoc, hfour]

theorem Pauli.mul_snd_eq_i_iff (p q : Pauli) : (p.mul q).2 = i ↔ p = q := by
  cases p <;> cases q <;> decide

/-- What a product of two Pauli matrices becomes. -/
theorem Pauli.sum_conjugates_mul (p q : Pauli) :
    (all.map fun s => s.matrix * (p.matrix * q.matrix) * s.matrix).sum =
      if p = q then (4 : κ) • (1 : Matrix (Fin 2) (Fin 2) κ) else 0 := by
  have hsum := sum_conjugates (κ := κ) (p.mul q).2
  by_cases hpq : p = q
  · subst hpq
    simpa [matrix_mul, mul_self, Phase.value] using hsum
  · rw [if_neg fun h => hpq ((mul_snd_eq_i_iff p q).mp h)] at hsum
    rw [if_neg hpq, matrix_mul]
    have hscaled := congrArg (((p.mul q).1.value : κ) • ·) hsum
    simpa only [List.smul_sum, List.map_map, Function.comp_def, Matrix.mul_smul, Matrix.smul_mul,
      smul_zero] using hscaled

namespace Element

/-- Selection finds a Pauli operator in front of an element that other qubits make up. -/
theorem select_mul (k : ℕ) (p q : Pauli) {e : Element (Fin 2) κ}
    (he : ∀ M, Commute (onQubit k M) e) :
    select k p (onQubit k q.matrix * e) = if p = q then (4 : κ) • e else 0 := by
  have hterm (s : Pauli) : onQubit k s.matrix * onQubit k p.matrix * (onQubit k q.matrix * e) *
      onQubit k s.matrix = onQubit k (s.matrix * (p.matrix * q.matrix) * s.matrix) * e := by
    rw [mul_assoc, mul_assoc (onQubit k q.matrix), ← (he s.matrix).eq]
    simp only [onQubit_mul, mul_assoc]
  have hsum := congrArg (fun M => onQubit k M * e) (Pauli.sum_conjugates_mul (κ := κ) p q)
  simp only [Pauli.all, List.map_cons, List.map_nil, List.sum_cons, List.sum_nil, onQubit_add,
    onQubit_zero, add_mul, zero_mul] at hsum
  simp only [select, Pauli.all, List.map_cons, List.map_nil, List.sum_cons, List.sum_nil,
    LinearMap.add_apply, LinearMap.zero_apply, LinearMap.mulLeftRight_apply, hterm, hsum]
  split
  · rw [onQubit_smul, onQubit_one, smul_mul_assoc, one_mul]
  · rw [onQubit_zero, zero_mul]

end Element

end Selection

/-! Words of several modes -/

section Words

variable {R : Type} [CommSemiring R]

/-- The product of the letters of words that stand at modes one after the other. -/
noncomputable def wordsAt (start : ℕ) : List (List Ladder) → Letters R
  | [] => 1
  | word :: rest => (word.map (Element.letter start)).prod * wordsAt (start + 1) rest

theorem prod_letters (k : ℕ) (word : List Ladder) :
    (word.map (Element.letter (R := R) k)).prod = MvPolynomial.monomial
      (Finsupp.single (k, false) (word.count .creation) +
        Finsupp.single (k, true) (word.count .annihilation)) 1 := by
  induction word with
  | nil => simp
  | cons l word ih =>
    rw [List.map_cons, List.prod_cons, ih]
    cases l with
    | identity => simp [Element.letter]
    | creation =>
      rw [Element.letter, MvPolynomial.X, MvPolynomial.monomial_mul, one_mul, List.count_cons_self,
        List.count_cons_of_ne (by decide), Nat.add_comm, Finsupp.single_add, add_assoc]
    | annihilation =>
      rw [Element.letter, MvPolynomial.X, MvPolynomial.monomial_mul, one_mul, List.count_cons_self,
        List.count_cons_of_ne (by decide), Finsupp.single_add, add_comm, add_assoc]

theorem wordsAt_eq (start : ℕ) (words : List (List Ladder)) :
    (wordsAt start words : Letters R) = MvPolynomial.monomial (occurrences start words) 1 := by
  induction words generalizing start with
  | nil => rfl
  | cons word rest ih =>
    rw [wordsAt, prod_letters, ih, MvPolynomial.monomial_mul, one_mul, occurrences]

/-- Letters of earlier modes do not occur. -/
theorem occurrences_eq_zero {start k : ℕ} (h : k < start) (b : Bool) (words : List (List Ladder)) :
    occurrences start words (k, b) = 0 := by
  induction words generalizing start with
  | nil => rfl
  | cons word rest ih =>
    have hne : ∀ b', (start, b') ≠ (k, b) := by
      intro b' heq
      cases heq
      exact Nat.lt_irrefl _ h
    rw [occurrences, Finsupp.add_apply, Finsupp.add_apply, ih (Nat.lt_succ_of_lt h),
      Finsupp.single_eq_of_ne (hne _).symm, Finsupp.single_eq_of_ne (hne _).symm]
    rfl

theorem Ladder.IsNormalWord.eq_of_count {v w : List Ladder} (hv : IsNormalWord v)
    (hw : IsNormalWord w) (hc : v.count .creation = w.count .creation)
    (ha : v.count .annihilation = w.count .annihilation) : v = w := by
  have hlength {u : List Ladder} (hid : .identity ∉ u) :
      u.count .creation + u.count .annihilation = u.length := by
    induction u with
    | nil => rfl
    | cons l u ih =>
      rw [List.mem_cons, not_or] at hid
      have := ih hid.2
      cases l with
      | identity => exact absurd rfl hid.1
      | creation | annihilation => simp; omega
  rcases hv with rfl | ⟨hnev, hidv, hsortv⟩
  · rcases hw with rfl | ⟨hnew, hidw, _⟩
    · rfl
    · have := hlength hidw
      rw [← hc, ← ha] at this
      exact absurd (List.length_eq_zero_iff.mp this.symm) hnew
  · rcases hw with rfl | ⟨_, hidw, hsortw⟩
    · have := hlength hidv
      rw [hc, ha] at this
      exact absurd (List.length_eq_zero_iff.mp this.symm) hnev
    · have hperm : v.Perm w := by
        rw [List.perm_iff_count]
        intro l
        cases l with
        | creation => exact hc
        | annihilation => exact ha
        | identity => rw [List.count_eq_zero_of_not_mem hidv, List.count_eq_zero_of_not_mem hidw]
      exact hperm.eq_of_pairwise
        (fun _ _ _ _ h h' => Ladder.rank_injective (Nat.le_antisymm h h')) hsortv hsortw

/-- Normal words are determined by how often each letter occurs at each mode. -/
theorem occurrences_injective {start : ℕ} {vs ws : List (List Ladder)}
    (hvs : ∀ v ∈ vs, Ladder.IsNormalWord v) (hws : ∀ w ∈ ws, Ladder.IsNormalWord w)
    (hlength : vs.length = ws.length) (h : occurrences start vs = occurrences start ws) :
    vs = ws := by
  induction vs generalizing start ws with
  | nil => exact (List.length_eq_zero_iff.mp hlength.symm).symm
  | cons v vs ih =>
    match ws with
    | [] => cases hlength
    | w :: ws =>
      rw [List.forall_mem_cons] at hvs hws
      have hcount (l : Ladder) (b : Bool) (hl : ∀ u us, occurrences start (u :: us) (start, b) =
          u.count l) : v.count l = w.count l := by
        rw [← hl v vs, ← hl w ws, h]
      have hhead : v = w := by
        refine hvs.1.eq_of_count hws.1 (hcount .creation false fun u us => ?_)
          (hcount .annihilation true fun u us => ?_)
        · simp [occurrences, occurrences_eq_zero (Nat.lt_succ_self start)]
        · simp [occurrences, occurrences_eq_zero (Nat.lt_succ_self start)]
      subst hhead
      rw [ih hvs.2 hws.2 (Nat.succ.inj hlength) (add_left_cancel h)]

end Words

/-! Keys -/

section Keys

variable {κ ι R ρ : Type} [RealScalar ρ] [Scalar κ ρ] [Fintype ι] [CommSemiring R]
  {I : Interpretation κ ι R}

theorem keyAt_words (start : Dims) (words : List (List Ladder)) :
    I.keyAt start (words.map .word) = Element.ofLetters (wordsAt start.modes words) := by
  induction words generalizing start with
  | nil => exact (map_one _).symm
  | cons word rest ih =>
    rw [List.map_cons, Interpretation.keyAt, ih, wordsAt, map_mul]
    rfl

/-- Keys act on qubits from their first position on. -/
theorem keyAt_commute {k : ℕ} {start : Dims} (h : k < start.qubits) (key : TermKey)
    (M : Matrix ι ι R) : Commute (Element.onQubit k M) (I.keyAt start key) := by
  induction key generalizing start with
  | nil => exact Commute.one_right _
  | cons f rest ih =>
    refine Commute.mul_right ?_ (ih (Nat.lt_of_lt_of_le h (Nat.le_add_right _ _)))
    cases f with
    | pauli p => exact Element.onQubit_commute (Nat.ne_of_lt h) _ _
    | word letters => exact (Element.ofLetters_commute _ _).symm

/-- What stands in front of a key, in all, is determined by what the terms add up to. -/
theorem sumAt_eq_of_total {sig : Signature} (hI : I.Separates sig)
    {ts us : List (Operator.KeyedTerm κ)} (hts : ∀ t ∈ ts, t.key.IsNormal sig)
    (hus : ∀ u ∈ us, u.key.IsNormal sig)
    (h : Operator.totalAt I 0 ts = Operator.totalAt I 0 us) {key : TermKey}
    (hkey : key.IsNormal sig) :
    sumAt Operator.KeyedTerm.key (fun t => I.number t.coeff) key ts =
      sumAt Operator.KeyedTerm.key (fun t => I.number t.coeff) key us := by
  obtain ⟨L, u, hcancel, hL⟩ := hI key hkey
  have htotal (xs : List (Operator.KeyedTerm κ)) (hxs : ∀ x ∈ xs, x.key.IsNormal sig) :
      L (Operator.totalAt I 0 xs) =
        sumAt Operator.KeyedTerm.key (fun t => I.number t.coeff) key xs * u := by
    induction xs with
    | nil => exact (map_zero L).trans (zero_mul u).symm
    | cons x xs ih =>
      rw [List.forall_mem_cons] at hxs
      have hcons : Operator.totalAt I 0 (x :: xs) =
          I.number x.coeff • I.keyAt 0 x.key + Operator.totalAt I 0 xs := rfl
      rw [hcons, map_add, map_smul, ih hxs.2, hL x.key hxs.1, sumAt_cons, add_mul, smul_eq_mul,
        mul_ite, ite_mul, mul_zero, zero_mul]
  refine hcancel _ _ ?_
  rw [← htotal ts hts, ← htotal us hus, h]

theorem key_eq_iff {ps qs : List Pauli} {vs ws : List (List Ladder)} (h : ps.length = qs.length) :
    (ps.map FactorKey.pauli ++ vs.map FactorKey.word) = qs.map .pauli ++ ws.map .word ↔
      ps = qs ∧ vs = ws := by
  constructor
  · intro heq
    obtain ⟨hpauli, hword⟩ := List.append_inj heq (by rw [List.length_map, List.length_map, h])
    exact ⟨(List.map_inj_right fun _ _ => FactorKey.pauli.inj).mp hpauli,
      (List.map_inj_right fun _ _ => FactorKey.word.inj).mp hword⟩
  · rintro ⟨rfl, rfl⟩
    rfl

end Keys

/-! Coordinates -/

section Coordinates

variable {κ ρ : Type} [RealScalar ρ] [Scalar κ ρ] [ExactScalar κ]

namespace Element

theorem toLetters_ofLetters (p : Letters κ) : toLetters (ofLetters p) = p := by
  change p • (1 : Letters κ) = p
  rw [smul_eq_mul, mul_one]

end Element

variable {β : Coeff.Bindings κ}

theorem factorAt_ofBindings (start : Dims) (p : Pauli) :
    (Interpretation.ofBindings β).factorAt start (.pauli p) =
      Element.onQubit start.qubits p.matrix := rfl

theorem coordinate_keyAt (start : Dims) {ps qs : List Pauli} {vs ws : List (List Ladder)}
    (hps : ps.length = qs.length) (hvs : ∀ v ∈ vs, Ladder.IsNormalWord v)
    (hws : ∀ w ∈ ws, Ladder.IsNormalWord w) (hlength : vs.length = ws.length) :
    coordinate vs start ps
        ((Interpretation.ofBindings β).keyAt start (qs.map .pauli ++ ws.map .word)) =
      if ps = qs ∧ vs = ws then (4 : κ) ^ ps.length else 0 := by
  induction ps generalizing start qs with
  | nil =>
    obtain rfl := List.length_eq_zero_iff.mp hps.symm
    rw [List.map_nil, List.nil_append, keyAt_words, coordinate, LinearMap.comp_apply,
      Element.toLetters_ofLetters, wordsAt_eq, MvPolynomial.lcoeff_apply, MvPolynomial.coeff_monomial]
    by_cases hvw : vs = ws
    · simp [hvw]
    · rw [if_neg fun h => hvw (occurrences_injective hvs hws hlength h.symm),
        if_neg fun h => hvw h.2]
  | cons p ps ih =>
    match qs with
    | [] => cases hps
    | q :: qs =>
      rw [List.map_cons, List.cons_append, Interpretation.keyAt, coordinate, LinearMap.comp_apply,
        factorAt_ofBindings, Element.select_mul]
      · by_cases hpq : p = q
        · subst hpq
          have hrest := ih (start + ⟨1, 0⟩) (Nat.succ.inj hps)
          rw [FactorKey.dims, if_pos rfl, map_smul, hrest, List.length_cons, pow_succ']
          simp
        · rw [if_neg hpq, map_zero, if_neg fun h => hpq (List.cons.inj h.1).1]
      · exact fun M => keyAt_commute (Nat.lt_succ_self _) _ M

theorem four_pow_mul_cancel {n : ℕ} {x y : κ} (h : x * 4 ^ n = y * 4 ^ n) : x = y := by
  have hhalf : (Scalar.ofReal (Operator.half : ρ) : κ) + Scalar.ofReal (Operator.half : ρ) = 1 :=
    ExactScalar.half_add_half
  generalize (Scalar.ofReal (Operator.half : ρ) : κ) = z at hhalf
  have hinverse : 4 ^ n * (z * z) ^ n = 1 := by
    rw [← mul_pow]
    have hsquare : 4 * (z * z) = 1 := by
      calc
        4 * (z * z) = (z + z) * (z + z) := by ring
        _ = 1 := by rw [hhalf, mul_one]
    rw [hsquare, one_pow]
  calc
    x = x * 4 ^ n * (z * z) ^ n := by rw [mul_assoc, hinverse, mul_one]
    _ = y * 4 ^ n * (z * z) ^ n := by rw [h]
    _ = y := by rw [mul_assoc, hinverse, mul_one]

/-- Coordinates tell the numbers in front of keys, up to powers of four. -/
theorem separates_ofBindings (sig : Signature) :
    (Interpretation.ofBindings β).Separates sig := by
  rintro _ ⟨ps, words, rfl, hps, hwords, hnormal⟩
  refine ⟨coordinate words 0 ps, 4 ^ ps.length, fun _ _ h => four_pow_mul_cancel h, ?_⟩
  rintro _ ⟨qs, ws, rfl, hqs, hws, hnormal'⟩
  rw [coordinate_keyAt 0 (hps.trans hqs.symm) hnormal hnormal' (hwords.trans hws.symm)]
  simp only [key_eq_iff (hqs.trans hps.symm), eq_comm (a := qs), eq_comm (a := ws)]

end Coordinates

end SpinBoson
