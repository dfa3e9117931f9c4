import SpinBoson.Circuit.Terms
import SpinBoson.Proofs.Canonical.Recognition

/-!
The terms that are read off an operator of the canonical shape: those of its sum, in order, under
their keys.
-/
namespace SpinBoson

variable {κ ρ : Type} [RealScalar ρ] [Scalar κ ρ]

namespace Operator

/-! Chains have keys -/

section Keys

omit [RealScalar ρ] [Scalar κ ρ]

theorem IsWord.exists_letters {a : Operator κ} (h : a.IsWord) :
    ∃ letters, a.mulFactors.mapM ladder? = some letters := by
  induction h with
  | mode l => exact ⟨[l], rfl⟩
  | mul _ _ iha ihb =>
    obtain ⟨as, ha⟩ := iha
    obtain ⟨bs, hb⟩ := ihb
    refine ⟨as ++ bs, ?_⟩
    rw [mulFactors, operands_bin_self, List.mapM_append, ha, hb]
    rfl

theorem IsChain.exists_key {a : Operator κ} (h : a.IsChain) : ∃ key, a.termKey? = some key := by
  have hfactors : ∃ key, a.kronFactors.mapM factorKey? = some key := by
    induction h with
    | pauli p => exact ⟨[.pauli p], rfl⟩
    | word h =>
      obtain ⟨letters, hletters⟩ := h.exists_letters
      have hfactor := congrArg (Option.map FactorKey.word) hletters
      refine ⟨[.word letters], mapM_eq_some.mpr ?_⟩
      rw [h.kronFactors]
      cases h with
      | mode | mul => exact .cons hfactor .nil
    | kron _ _ iha ihb =>
      obtain ⟨as, ha⟩ := iha
      obtain ⟨bs, hb⟩ := ihb
      refine ⟨as ++ bs, ?_⟩
      rw [kronFactors, operands_bin_self, List.mapM_append, ha, hb]
      rfl
  rwa [termKey?, unscaled_of_plain h.isProduct.plain]

end Keys

/-! Terms of chains and of sums -/

theorem termList_bin (op : Op) (a b : Operator κ) : (bin op a b).termList =
    a.termList >>= fun ts => b.termList >>= fun us => (bin op a b).termsAt [ts, us] := rfl

theorem termList_scale (c : Coeff κ) (a : Operator κ) :
    (scale c a).termList = a.termList >>= fun ts => (scale c a).termsAt [ts] := rfl

/-- A product that has a key is a term of its own, whatever its operands are. -/
theorem termsAt_of_product {a : Operator κ} (h : a.IsProduct) {key : TermKey}
    (hkey : a.termKey? = some key) (operands : List (List (Term κ))) :
    a.termsAt operands = .ok [⟨key, a, .lit 1⟩] := by
  unfold termsAt
  cases h <;> simp [hkey]

theorem termList_of_chain {a : Operator κ} (h : a.IsChain) :
    ∃ key, a.termKey? = some key ∧ a.termList = .ok [⟨key, a, .lit 1⟩] := by
  have word {w : Operator κ} (hw : w.IsWord) :
      ∃ key, w.termKey? = some key ∧ w.termList = .ok [⟨key, w, .lit 1⟩] := by
    induction hw with
    | mode l => exact ⟨[.word [l]], rfl, rfl⟩
    | mul hx hy ihx ihy =>
      obtain ⟨_, _, hx'⟩ := ihx
      obtain ⟨_, _, hy'⟩ := ihy
      obtain ⟨key, hkey⟩ := (IsChain.word (.mul hx hy)).exists_key
      refine ⟨key, hkey, ?_⟩
      rw [termList_bin, hx', hy', ok_bind, ok_bind]
      exact termsAt_of_product (.mul hx.isProduct hy.isProduct) hkey _
  induction h with
  | pauli p => exact ⟨[.pauli p], rfl, rfl⟩
  | word h => exact word h
  | kron hx hy ihx ihy =>
    obtain ⟨_, _, hx'⟩ := ihx
    obtain ⟨_, _, hy'⟩ := ihy
    obtain ⟨key, hkey⟩ := (IsChain.kron hx hy).exists_key
    refine ⟨key, hkey, ?_⟩
    rw [termList_bin, hx', hy', ok_bind, ok_bind]
    exact termsAt_of_product (.kron hx.isProduct hy.isProduct) hkey _

/-- What is read off a term. -/
def KeyedTerm.extracted (t : KeyedTerm κ) : Term κ :=
  Term.scale t.coeff ⟨t.key, t.chain, .lit 1⟩

/-- The number one in front of a chain gives way to the coefficient of the term. -/
theorem KeyedTerm.extracted_eq (hone : ((1 : κ) == 1) = true) (t : KeyedTerm κ) :
    t.extracted = ⟨t.key, t.chain, t.coeff⟩ := by
  have hliteral : (Coeff.lit (1 : κ)).isLiteral 1 = true := hone
  simp only [extracted, Term.scale, hliteral, if_true]

/-- The terms of a sum, in its order. -/
theorem termList_of_terms {s : Signature} {ts : List (KeyedTerm κ)} (hts : ∀ t ∈ ts, t.IsNormal s)
    {a : Operator κ} (h : a.terms = ts.map KeyedTerm.operator) :
    a.termList = .ok (ts.map KeyedTerm.extracted) := by
  have single {a : Operator κ} {ts : List (KeyedTerm κ)} (hts : ∀ t ∈ ts, t.IsNormal s)
      (h : [a] = ts.map KeyedTerm.operator) : a.termList = .ok (ts.map KeyedTerm.extracted) := by
    obtain ⟨t, rfl, rfl⟩ := List.map_eq_singleton_iff.mp h.symm
    obtain ⟨harranged, htermKey⟩ := KeyedTerm.isNormal_iff.mp (hts t List.mem_cons_self)
    obtain ⟨key, hkey, hlist⟩ := termList_of_chain (harranged.isChain fun _ hw => hw.isWord)
    obtain rfl := Option.some.inj (htermKey.symm.trans hkey)
    rw [KeyedTerm.operator, termList_scale, hlist]
    rfl
  induction a using operands_induction .add generalizing ts with
  | single a ha => exact single hts (ha.symm.trans h)
  | bin x y ihx ihy =>
    rw [terms, operands_bin_self] at h
    obtain ⟨us, vs, rfl, hus, hvs⟩ := List.map_eq_append_iff.mp h.symm
    rw [List.forall_mem_append] at hts
    have hx := ihx hts.1 hus.symm
    have hy := ihy hts.2 hvs.symm
    rw [termList_bin, hx, hy, ok_bind, ok_bind, List.map_append]
    simp [termsAt]

end Operator

end SpinBoson
