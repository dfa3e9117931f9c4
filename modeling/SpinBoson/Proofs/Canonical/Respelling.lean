import Mathlib
import SpinBoson.Proofs.Canonical.Completion
import SpinBoson.Proofs.Canonical.Meaning
import SpinBoson.Proofs.Coeff.Uniqueness
import SpinBoson.Proofs.Operator.Regular
import SpinBoson.Proofs.Operator.Spelling

/-!
The canonical form does not depend on how the sums in an operator are written, also with variables
in its coefficients. The terms of two spellings differ in number and order, but under each key their
coefficients have the same normal form once they are added up.
-/
namespace SpinBoson.Canonical

open Operator Coeff

variable {κ ρ : Type} [RealScalar ρ] [Scalar κ ρ] [OrderKey κ] [ExactRing κ] {s : Settings ρ}

/-! Traces of coefficients -/

/-- The polynomial of the normal form, and beside it a one, which no addition of traces changes and
by which no trace is zero. -/
noncomputable def trace (s : Settings ρ) (c : Coeff κ) :
    MvPolynomial (Coeff κ) κ × Tropical (WithTop ℕ) :=
  ((c.normalForm s).polynomial, 1)

theorem trace_lit (hs : s.tolerance = 0) (z : κ) : trace s (.lit z) = (MvPolynomial.C z, 1) :=
  congrArg (·, 1) ((substitutes_normalForm hs).lit z)

theorem trace_mul (hs : s.tolerance = 0) (c d : Coeff κ) :
    trace s (.mul c d) = trace s c * trace s d := by
  have hpolynomial := Reading.number_mul (r := normalized s hs) (a := c) (b := d) trivial trivial
  exact Prod.ext hpolynomial (mul_one 1).symm

theorem trace_add (hs : s.tolerance = 0) (c d : Coeff κ) :
    trace s (.add c d) = trace s c + trace s d := by
  have hpolynomial := Reading.number_add (r := normalized s hs) (a := c) (b := d) trivial trivial
  exact Prod.ext hpolynomial (Tropical.add_self 1).symm

theorem trace_merge (hs : s.tolerance = 0) (c d : Coeff κ) :
    trace s (mergeCoeffs c d) = trace s c * trace s d := by
  unfold mergeCoeffs
  split
  · rw [trace_lit hs, trace_lit hs, trace_lit hs, Prod.mk_mul_mk, mul_one, ← map_mul]
  · exact trace_mul hs _ _

/-- Traces as the numbers for coefficients. -/
noncomputable def tracing (s : Settings ρ) (hs : s.tolerance = 0) :
    Interpretation κ Pauli (MvPolynomial (Coeff κ) κ × Tropical (WithTop ℕ)) :=
  .regular (trace s) ((trace_lit hs 1).trans (congrArg (·, 1) (map_one _))) (trace_merge hs)

theorem sumsMeanSums_tracing (hs : s.tolerance = 0) : SumsMeanSums (tracing (κ := κ) s hs) :=
  fun _ _ => ⟨trivial, trace_add hs _ _⟩

/-! Sums of terms -/

/-- Sorting takes the normal form of each merged coefficient. -/
theorem sortedTerms_eq {ts ns : List (KeyedTerm κ)} (h : sortedTerms s ts = .ok ns) :
    ns = (mergedTerms ts).map fun t => { t with coeff := t.coeff.normalForm s } := by
  change (mergedTerms ts).mapM _ = _ at h
  generalize mergedTerms ts = us at h ⊢
  induction mapM_eq_ok.mp h with
  | nil => rfl
  | cons hn hrest ih =>
    obtain ⟨c, hc, hn⟩ := bind_eq_ok.mp hn
    cases hn
    rw [List.map_cons, ← ih (mapM_eq_ok.mpr hrest), normalize_eq hc]

/-- Under every key stands the same polynomial in the normal forms of two lists of terms that add up
to the same. -/
theorem sumAt_normalized (hs : s.tolerance = 0) {sig : Signature} {ts us : List (KeyedTerm κ)}
    (hts : ∀ t ∈ ts, t.IsNormal sig) (hus : ∀ u ∈ us, u.IsNormal sig)
    (htotal : totalAt (tracing s hs) 0 ts = totalAt (tracing s hs) 0 us) {key : TermKey}
    (hkey : key.IsNormal sig) {ns ms : List (KeyedTerm κ)} (hns : sortedTerms s ts = .ok ns)
    (hms : sortedTerms s us = .ok ms) :
    sumAt KeyedTerm.key (fun n => (n.coeff.polynomial, (1 : Tropical (WithTop ℕ)))) key ns =
      sumAt KeyedTerm.key (fun n => (n.coeff.polynomial, (1 : Tropical (WithTop ℕ)))) key ms := by
  have hmerged {ts : List (KeyedTerm κ)} (hts : ∀ t ∈ ts, t.IsNormal sig) :
      ∀ t ∈ mergedTerms ts, t.key.IsNormal sig := fun t ht =>
    (mergedTerms_forall (R := fun t => t.IsNormal sig) (fun _ _ ht _ => ht) hts t ht).1
  have hsum := sumAt_eq_of_total (I := tracing s hs) (separates_regular _ _ sig) (hmerged hts)
    (hmerged hus) (by
      rw [merged_total (sumsMeanSums_tracing hs) fun _ _ => trivial,
        merged_total (sumsMeanSums_tracing hs) fun _ _ => trivial, htotal]) hkey
  rw [sortedTerms_eq hns, sortedTerms_eq hms, sumAt, sumAt, List.map_map, List.map_map]
  exact hsum

variable [Nontrivial κ]

/-- Terms that add up to the same have the same sum once their coefficients are in normal form. -/
theorem completes_unique (hs : s.tolerance = 0)
    (hkey : Function.Injective (orderKey (κ := κ))) {sig : Signature} {ts us : List (KeyedTerm κ)}
    (hts : ∀ t ∈ ts, t.IsNormal sig) (hus : ∀ u ∈ us, u.IsNormal sig)
    (htotal : totalAt (tracing s hs) 0 ts = totalAt (tracing s hs) 0 us) {v w : Operator κ}
    (hv : Completes s ts v) (hw : Completes s us w) : v = w := by
  obtain ⟨ns, hns, hformn, hv⟩ := hv
  obtain ⟨ms, hms, hformm, hw⟩ := hw
  have hterms {ts ns : List (KeyedTerm κ)} (hts : ∀ t ∈ ts, t.IsNormal sig)
      (hns : sortedTerms s ts = .ok ns) : Increasing ns ∧ ∀ n ∈ ns, n.IsNormal sig := by
    rw [sortedTerms_eq hns, Increasing, List.map_map]
    refine ⟨mergedTerms_increasing ts, List.forall_mem_map.mpr fun t ht => ?_⟩
    exact mergedTerms_forall (R := fun t => t.IsNormal sig) (fun _ _ ht _ => ht) hts t ht
  obtain ⟨hincn, hnormaln⟩ := hterms hts hns
  obtain ⟨hincm, hnormalm⟩ := hterms hus hms
  suffices ns = ms by
    subst this
    exact Option.some.inj (hv.symm.trans hw)
  refine eq_of_sumAt KeyedTerm.key (fun n => (n.coeff.polynomial, (1 : Tropical (WithTop ℕ))))
    (r := fun n m => n.key.lt m.key = true) (nodup_of_increasing hincn) (nodup_of_increasing hincm)
    (List.pairwise_map.mp hincn) (List.pairwise_map.mp hincm) ?_ ?_ ?_ ?_ ?_
  · intro n m _ _ hnm hmn
    exact absurd (TermKey.lt_iff.mp hnm) (lt_asymm (TermKey.lt_iff.mp hmn))
  · exact fun n _ h => one_ne_zero (α := Tropical (WithTop ℕ)) (congrArg Prod.snd h)
  · exact fun n _ h => one_ne_zero (α := Tropical (WithTop ℕ)) (congrArg Prod.snd h)
  · rintro ⟨key, c, chain⟩ hn ⟨key', c', chain'⟩ hm hsame hnumber
    dsimp only at hsame hnumber
    subst hsame
    have hn' := hformn _ hn
    have hm' := hformm _ hm
    rw [hs] at hn' hm'
    obtain rfl : c = c' := eq_of_polynomial hkey hn' hm' (congrArg Prod.fst hnumber)
    obtain rfl : chain = chain' :=
      Option.some.inj ((hnormaln _ hn).2.symm.trans (hnormalm _ hm).2)
    rfl
  · intro n hn
    refine sumAt_normalized hs hts hus htotal ?_ hns hms
    exact (List.mem_append.mp hn).elim (fun hn => (hnormaln n hn).1) fun hn => (hnormalm n hn).1

/-! Canonical forms -/

omit [Nontrivial κ] in
/-- The terms of an operator with a signature, and what they are completed to. -/
theorem exists_terms (hs : s.tolerance = 0) {a : Operator κ} {sig : Signature}
    (hread : ∀ c ∈ a.coeffs, c.Readable) (hsig : a.signature = .ok sig) (hconv : Converges s a) :
    ∃ ts v, canonicalize κ s a = .ok v ∧ (∀ t ∈ ts, t.IsNormal sig) ∧
      totalAt (tracing s hs) 0 ts = (tracing s hs).elementAt 0 a ∧ Completes s ts v := by
  obtain ⟨b, hb, hbterms, hset⟩ := exists_expanded hread hsig hconv
  obtain ⟨ts, v, hterms, hts, hv, hcompletes⟩ := exists_completes hs hbterms hset
  have hrules := keptByRules_preserves (tracing (κ := κ) s hs)
  have hpreserves : Preserves (tracing s hs) a b :=
    Pass.runAll_related hrules.congruence.refl hrules.congruence.trans _
      (expansion_respects hrules s) hb
  obtain ⟨-, -, helem⟩ :=
    hpreserves ⟨(balanced_of_signature hsig).1, fun _ _ => trivial⟩
  refine ⟨ts, v, Pass.runAll_append.mpr ⟨b, hb, hv⟩, hts, ?_, hcompletes⟩
  rw [← elementAt_sum hts hterms, helem]

/--
Operators that differ only in how their sums are written have the same canonical form, if there is
one: with readable coefficients there is, and without there is none for either.
-/
theorem canonicalize_eq_of_spelling (hs : s.tolerance = 0)
    (hkey : Function.Injective (orderKey (κ := κ))) {a b : Operator κ} {sig : Signature}
    (hsig : a.signature = .ok sig) (hspelling : SameSpelling a b) (hconva : Converges s a)
    (hconvb : Converges s b) :
    (∀ v, canonicalize κ s a = .ok v ↔ canonicalize κ s b = .ok v) ∧
      ((∀ c ∈ a.coeffs, c.Readable) → ∃ v, canonicalize κ s a = .ok v) := by
  have hread : (∀ c ∈ a.coeffs, c.Readable) ↔ ∀ c ∈ b.coeffs, c.Readable :=
    hspelling.coeffsAll fun z => readable_lit z
  have hmain (hreada : ∀ c ∈ a.coeffs, c.Readable) :
      ∃ v, canonicalize κ s a = .ok v ∧ canonicalize κ s b = .ok v := by
    have hsigb := (hspelling.signature sig).mp hsig
    obtain ⟨ts, v, hv, hts, htotal, hcompletes⟩ := exists_terms hs hreada hsig hconva
    obtain ⟨us, w, hw, hus, htotal', hcompletes'⟩ :=
      exists_terms hs (hread.mp hreada) hsigb hconvb
    have heq : v = w := completes_unique hs hkey hts hus
      (by rw [htotal, htotal', hspelling.elementAt hsig]) hcompletes hcompletes'
    exact ⟨v, hv, heq ▸ hw⟩
  refine ⟨fun v => ⟨fun hv => ?_, fun hv => ?_⟩, fun hreada => ?_⟩
  · obtain ⟨w, hw, hw'⟩ := hmain (readable_of_canonicalize hv)
    rwa [Except.ok.inj (hv.symm.trans hw)]
  · obtain ⟨w, hw, hw'⟩ := hmain (hread.mpr (readable_of_canonicalize hv))
    rwa [Except.ok.inj (hv.symm.trans hw')]
  · obtain ⟨v, hv, -⟩ := hmain hreada
    exact ⟨v, hv⟩

/-- A product with a difference, one of whose terms has a variable in front. -/
def factored : Operator ClosedNumber :=
  mul (sub (spin (.pauli .z)) (scale (.var "x") (spin (.pauli .x)))) (spin (.pauli .y))

/-- The sum of its products, the last one first. -/
noncomputable def expanded : Operator ClosedNumber :=
  add (mul (scale (.lit Scalar.minusOne) (scale (.var "x") (spin (.pauli .x)))) (spin (.pauli .y)))
    (mul (spin (.pauli .z)) (spin (.pauli .y)))

/-- The product with the difference and the sum of its products have one canonical form. -/
theorem canonicalize_eq_of_spelling_difference :
    ∃ (s : Settings ClosedReal) (v : Operator ClosedNumber),
      canonicalize ClosedNumber s factored = .ok v ∧
        canonicalize ClosedNumber s expanded = .ok v := by
  have hspelling : SameSpelling factored expanded :=
    .trans _ _ _ (.rel _ _ (.left .mul _ (.difference _ _)))
      (.trans _ _ _ (.rel _ _ (.expandLeft (.inl rfl) _ _ _)) (.rel _ _ (.swap _ _)))
  have hread : factored.CoeffsAll Coeff.Readable := by
    simp [factored, Operator.CoeffsAll, coeffs, Coeff.Readable, Coeff.AllNodes]
  have hread' := (hspelling.coeffsAll fun z => readable_lit z).mp hread
  have hsig : factored.signature = .ok [.qubit] := rfl
  have hkey : Function.Injective (orderKey (κ := ClosedNumber)) := fun c d h =>
    ClosedNumber.key_injective (Prod.mk.inj h).2
  obtain ⟨cap, hconva, hconvb⟩ :=
    ((exists_converges (⟨0, 0⟩ : Settings ClosedReal) hread hsig).and
      (exists_converges (⟨0, 0⟩ : Settings ClosedReal) hread' rfl)).exists
  obtain ⟨hiff, hexists⟩ := canonicalize_eq_of_spelling rfl hkey hsig hspelling hconva hconvb
  obtain ⟨v, hv⟩ := hexists hread
  exact ⟨_, v, hv, (hiff v).mp hv⟩

end SpinBoson.Canonical
