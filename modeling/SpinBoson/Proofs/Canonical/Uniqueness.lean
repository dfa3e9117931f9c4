import SpinBoson.Proofs.Canonical.Meaning
import SpinBoson.Proofs.Canonical.Success
import SpinBoson.Proofs.Coeff.Closed
import SpinBoson.Proofs.Operator.Independence

/-!
Over exact scalars the canonical form of an operator without variables is determined by the element
that it denotes, unless that is zero.
-/
namespace SpinBoson.Canonical

open Operator

variable {κ ρ : Type} [RealScalar ρ] [Scalar κ ρ] [ExactScalar κ]

/-! Terms with literals in front -/

/-- Terms that stand for their keys with a nonzero literal in front. -/
def IsLiteralTerm (sig : Signature) (t : KeyedTerm κ) : Prop :=
  t.IsNormal sig ∧ ∃ z, t.coeff = .lit z ∧ z ≠ 0

omit [ExactScalar κ] in
theorem IsLiteralTerm.of_dims {sig sig' : Signature} (h : sig.dims = sig'.dims) {t : KeyedTerm κ}
    (ht : IsLiteralTerm sig t) : IsLiteralTerm sig' t := by
  obtain ⟨⟨⟨ps, words, hkey, hps, hwords, hnormal⟩, hchain⟩, hcoeff⟩ := ht
  obtain ⟨hqubits, hmodes⟩ := Dims.mk.inj h
  exact ⟨⟨⟨ps, words, hkey, hps.trans hqubits, hwords.trans hmodes, hnormal⟩, hchain⟩, hcoeff⟩

omit [ExactScalar κ] in
theorem IsLiteralTerm.eq_of_key {sig : Signature} {t u : KeyedTerm κ}
    (ht : IsLiteralTerm sig t) (hu : IsLiteralTerm sig u) (hkey : t.key = u.key)
    {β : Coeff.Bindings κ} (hcoeff : t.coeff.number β = u.coeff.number β) : t = u := by
  obtain ⟨⟨_, hchain⟩, z, hz, _⟩ := ht
  obtain ⟨⟨_, hchain'⟩, w, hw, _⟩ := hu
  obtain ⟨key, c, chain⟩ := t
  obtain ⟨key', c', chain'⟩ := u
  dsimp only at hkey hz hw hchain hchain' hcoeff
  subst hkey hz hw
  cases hchain.symm.trans hchain'
  rw [Coeff.number_lit, Coeff.number_lit] at hcoeff
  rw [hcoeff]

/-- Terms with increasing keys and nonzero literals are determined by what they add up to. -/
theorem terms_eq_of_total {β : Coeff.Bindings κ} {sig : Signature} {ts us : List (KeyedTerm κ)}
    (hts : ∀ t ∈ ts, IsLiteralTerm sig t) (hus : ∀ u ∈ us, IsLiteralTerm sig u)
    (hinct : Increasing ts) (hincu : Increasing us)
    (h : totalAt (.ofBindings β) 0 ts = totalAt (.ofBindings β) 0 us) : ts = us := by
  have nonzero {vs : List (KeyedTerm κ)} (hvs : ∀ v ∈ vs, IsLiteralTerm sig v) :
      ∀ v ∈ vs, v.coeff.number β ≠ 0 := by
    intro v hv
    obtain ⟨-, z, hz, hne⟩ := hvs v hv
    rwa [hz, Coeff.number_lit]
  refine eq_of_sumAt KeyedTerm.key (fun t => t.coeff.number β)
    (r := fun t u => t.key.lt u.key = true) (nodup_of_increasing hinct) (nodup_of_increasing hincu)
    (List.pairwise_map.mp hinct) (List.pairwise_map.mp hincu) ?_ (nonzero hts) (nonzero hus)
    (fun t ht u hu hkey hnumber => (hts t ht).eq_of_key (hus u hu) hkey hnumber) ?_
  · intro t u _ _ htu hut
    exact absurd (TermKey.lt_iff.mp htu) (lt_asymm (TermKey.lt_iff.mp hut))
  · intro t ht
    have hnormal : t.key.IsNormal sig :=
      (List.mem_append.mp ht).elim (fun ht => (hts t ht).1.1) fun ht => (hus t ht).1.1
    exact sumAt_eq_of_total (separates_ofBindings sig) (fun t ht => (hts t ht).1.1)
      (fun u hu => (hus u hu).1.1) h hnormal

/-! Canonical forms -/

section Forms

variable [OrderKey κ] {s : Settings ρ} {sig : Signature} {v : Operator κ}

theorem exists_literalTerms (hs : s.tolerance = 0) (h : IsSettled s sig v)
    (hclosed : v.CoeffsAll (Coeff.Defined Coeff.noBindings))
    (hne : v.element Coeff.noBindings ≠ 0) :
    ∃ ts : List (KeyedTerm κ), sum? (ts.map KeyedTerm.operator) = some v ∧ Increasing ts ∧
      ∀ t ∈ ts, IsLiteralTerm sig t := by
  have hliteral : v.CoeffsAll fun c => ∃ z, c = .lit z := fun c hc =>
    Coeff.exists_lit_of_normal (h.stable c hc).normal.textFree (h.stable c hc).normal.distributed
      (hclosed c hc)
  rcases h.increasing.isTermSum.cases with hsum | ⟨t, ht, rfl⟩
  · obtain ⟨ts, hts, hinc, hnormal⟩ := h.increasing
    have hliteral := (coeffsAll_keyed hnormal (terms_of_sum hts)).mp hliteral
    have hlarge := (coeffsAll_keyed hnormal (terms_of_sum hts)).mp
      (fun c hc => (h.significant hsum c hc).2)
    refine ⟨ts, hts, hinc, fun t ht => ⟨hnormal t ht, ?_⟩⟩
    obtain ⟨z, hz⟩ := hliteral t ht
    refine ⟨z, hz, fun hzero => ?_⟩
    have hsmall : isNegligible s.tolerance t.coeff = true := by
      rw [hs, isNegligible_iff, hz, hzero]
    rw [hlarge t ht] at hsmall
    cases hsmall
  · obtain ⟨z, hz⟩ := hliteral t.coeff (by simp [KeyedTerm.operator, coeffs])
    refine ⟨[t], rfl, List.pairwise_singleton _ _, List.forall_mem_singleton.mpr ⟨ht, z, hz, ?_⟩⟩
    rintro rfl
    apply hne
    simp [KeyedTerm.operator, elementAt, hz]

/--
Two operators without variables that act on equally many qubits and modes have the same canonical
form if they denote the same element, unless that is zero.
-/
theorem canonicalize_eq_of_element (hs : s.tolerance = 0) {a b : Operator κ}
    {siga sigb : Signature} (hsiga : a.signature = .ok siga) (hsigb : b.signature = .ok sigb)
    (hdims : siga.dims = sigb.dims)
    (ha : ∀ c ∈ a.coeffs, c.Defined Coeff.noBindings)
    (hb : ∀ c ∈ b.coeffs, c.Defined Coeff.noBindings)
    (hconva : Converges s a) (hconvb : Converges s b)
    (helem : a.element Coeff.noBindings = b.element Coeff.noBindings)
    (hne : a.element Coeff.noBindings ≠ 0) :
    ∃ v, canonicalize κ s a = .ok v ∧ canonicalize κ s b = .ok v := by
  obtain ⟨v, hv, hnormv⟩ := exists_canonical (fun c hc => (ha c hc).readable) hsiga hconva
  obtain ⟨w, hw, hnormw⟩ := exists_canonical (fun c hc => (hb c hc).readable) hsigb hconvb
  obtain ⟨⟨_, hv'⟩, _, hvelem⟩ :=
    canonicalize_preserves hs hv ⟨(balanced_of_signature hsiga).1, ha⟩
  obtain ⟨⟨_, hw'⟩, _, hwelem⟩ :=
    canonicalize_preserves hs hw ⟨(balanced_of_signature hsigb).1, hb⟩
  simp only [Interpretation.elementAt_ofBindings] at hvelem hwelem
  obtain ⟨ts, hts, hinct, hlitt⟩ := exists_literalTerms hs hnormv hv' (by rwa [element, hvelem])
  obtain ⟨us, hus, hincu, hlitu⟩ :=
    exists_literalTerms hs hnormw hw' (by rwa [element, hwelem, ← element, ← helem])
  have htotal : totalAt (.ofBindings Coeff.noBindings) 0 ts =
      totalAt (.ofBindings Coeff.noBindings) 0 us := by
    rw [← elementAt_sum (fun t ht => (hlitt t ht).1) (terms_of_sum hts),
      ← elementAt_sum (fun u hu => (hlitu u hu).1) (terms_of_sum hus),
      Interpretation.elementAt_ofBindings, Interpretation.elementAt_ofBindings, hvelem, hwelem]
    exact helem
  have heq := terms_eq_of_total hlitt (fun u hu => (hlitu u hu).of_dims hdims.symm) hinct hincu htotal
  subst heq
  cases hts.symm.trans hus
  exact ⟨v, hv, hw⟩

end Forms

/-- The square of a Pauli operator and the identity have the same canonical form. -/
theorem canonicalize_eq_of_element_square :
    ∃ (s : Settings ClosedReal) (v : Operator ClosedNumber),
      canonicalize ClosedNumber s (mul (spin (.pauli .x)) (spin (.pauli .x))) = .ok v ∧
        canonicalize ClosedNumber s (spin (.pauli .i)) = .ok v := by
  have hsquare : (mul (spin (.pauli .x)) (spin (.pauli .x)) : Operator ClosedNumber).signature =
      .ok [.qubit] := rfl
  have hidentity : (spin (.pauli .i) : Operator ClosedNumber).signature = .ok [.qubit] := rfl
  have hone : (spin (.pauli .i) : Operator ClosedNumber).element Coeff.noBindings = 1 :=
    Element.onQubit_one 0
  have helem : (mul (spin (.pauli .x)) (spin (.pauli .x)) :
      Operator ClosedNumber).element Coeff.noBindings = 1 := by
    have hmatrix := Pauli.matrix_mul (κ := ClosedNumber) .x .x
    rw [Pauli.mul, Phase.value, one_smul] at hmatrix
    calc
      _ = Element.onQubit 0 Pauli.x.matrix * Element.onQubit 0 Pauli.x.matrix := rfl
      _ = Element.onQubit 0 1 := by rw [← Element.onQubit_mul, hmatrix]; rfl
      _ = 1 := Element.onQubit_one 0
  obtain ⟨cap, hconva, hconvb⟩ :=
    ((exists_converges (⟨0, 0⟩ : Settings ClosedReal) (by simp [coeffs]) hsquare).and
      (exists_converges (⟨0, 0⟩ : Settings ClosedReal) (by simp [coeffs]) hidentity)).exists
  exact ⟨_, canonicalize_eq_of_element rfl hsquare hidentity rfl (by simp [coeffs])
    (by simp [coeffs]) hconva hconvb (helem.trans hone.symm) (by rw [helem]; exact one_ne_zero)⟩

end SpinBoson.Canonical
