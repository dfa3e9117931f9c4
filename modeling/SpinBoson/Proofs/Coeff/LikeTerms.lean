import SpinBoson.Proofs.Coeff.Groups
import SpinBoson.Proofs.ComplexDoubles

/-!
Like terms without hashes. A scan compares each term with the groups one after the other; grouping by
any hash that does not tell apart what tests equal makes the same groups, whatever it confuses.
-/
namespace SpinBoson.Coeff

variable {κ ρ : Type} [RealScalar ρ] [Scalar κ ρ]

/-- Adds a number to the first group of equal factors, or opens a group behind the others. -/
def addTerm (t : Monomial κ) : List (Monomial κ) → List (Monomial κ)
  | [] => [t]
  | m :: ms => if m.2 == t.2 then (m.1 + t.1, m.2) :: ms else m :: addTerm t ms

/-- The groups of terms that are added one after the other. -/
def scanTerms (ts : List (Monomial κ)) : List (Monomial κ) :=
  ts.foldl (fun ms t => addTerm t ms) []

section Scan

variable {t : Monomial κ} {ms : List (Monomial κ)}

theorem addTerm_of_new (h : ∀ m ∈ ms, ¬ (m.2 == t.2) = true) : addTerm t ms = ms ++ [t] := by
  induction ms with
  | nil => rfl
  | cons m ms ih =>
    rw [List.forall_mem_cons] at h
    rw [addTerm, if_neg h.1, ih h.2, List.cons_append]

theorem addTerm_of_first {i : Nat} {m : Monomial κ} (hm : ms[i]? = some m)
    (heq : (m.2 == t.2) = true)
    (hfirst : ∀ j < i, ∀ m', ms[j]? = some m' → ¬ (m'.2 == t.2) = true) :
    addTerm t ms = ms.modify i fun m => (m.1 + t.1, m.2) := by
  induction ms generalizing i with
  | nil => cases hm
  | cons n ms ih =>
    cases i with
    | zero =>
      obtain rfl : n = m := Option.some.inj hm
      rw [addTerm, if_pos heq, List.modify_zero_cons]
    | succ i =>
      rw [addTerm, if_neg (hfirst 0 (Nat.succ_pos i) n rfl), List.modify_succ_cons]
      rw [ih hm fun j hj m' hm' => hfirst (j + 1) (Nat.succ_lt_succ hj) m' hm']

end Scan

/-! The index -/

namespace Groups

variable [OrderKey κ] {g : Groups κ}

/-- Whether the places of each hash come in the order of the groups and hold none but these. -/
def InTurn (g : Groups κ) : Prop :=
  ∀ h : UInt64, ((g.places[h]?).getD []).Pairwise (· < ·) ∧
    ∀ i ∈ (g.places[h]?).getD [], i < g.members.size

theorem insert_inTurn (hg : g.InTurn) (t : Monomial κ) : (g.insert t).InTurn := by
  unfold insert
  dsimp only
  split
  · intro h
    rw [Array.size_modify]
    exact hg h
  · intro h
    obtain ⟨hsorted, hbound⟩ := hg h
    dsimp only
    rw [Std.HashMap.getElem?_insert, Array.size_push]
    split
    · rename_i hsame
      obtain rfl : hash t.2 = h := by simpa using hsame
      rw [Option.getD_some, List.pairwise_append]
      refine ⟨⟨hsorted, List.pairwise_singleton _ _, fun i hi j hj => ?_⟩, fun i hi => ?_⟩
      · rw [List.mem_singleton.mp hj]
        exact hbound i hi
      · rcases List.mem_append.mp hi with hi | hi
        · exact Nat.lt_succ_of_lt (hbound i hi)
        · rw [List.mem_singleton.mp hi]
          exact Nat.lt_succ_self _
    · exact ⟨hsorted, fun i hi => Nat.lt_succ_of_lt (hbound i hi)⟩

/-- The group that is found by its hash is the first one with the factors of the term. -/
theorem insert_eq_addTerm [LawfulOrderKey κ] (hg : g.Indexed) (hturn : g.InTurn) (t : Monomial κ) :
    (g.insert t).members.toList = addTerm t g.members.toList := by
  unfold insert
  dsimp only
  split
  · rename_i i hfind
    obtain ⟨hi, before, after, hcandidates, hbefore⟩ := List.find?_eq_some_iff_append.mp hfind
    cases hm : g.members[i]? with
    | none => simp [hm] at hi
    | some m =>
      simp only [hm] at hi
      rw [Array.toList_modify]
      refine (addTerm_of_first (by simpa using hm) hi fun j hj m' hm' heq => ?_).symm
      -- such a group has the same hash, so its place stands before the one that is found
      have hj' : g.members[j]? = some m' := by simpa using hm'
      have hplace := mem_candidates hg hj' heq
      have hsorted := (hturn (hash t.2)).1
      rw [hcandidates, List.pairwise_append] at hsorted
      rw [hcandidates, List.mem_append, List.mem_cons] at hplace
      rcases hplace with hmem | rfl | hmem
      · have hno := hbefore j hmem
        simp [hj', heq] at hno
      · exact Nat.lt_irrefl j hj
      · exact Nat.lt_asymm hj ((List.pairwise_cons.mp hsorted.2.1).1 j hmem)
  · rename_i hnone
    rw [Array.toList_push]
    refine (addTerm_of_new fun m hm heq => ?_).symm
    obtain ⟨i, hi⟩ := List.mem_iff_getElem?.mp hm
    have hi' : g.members[i]? = some m := by simpa using hi
    have hno := List.find?_eq_none.mp hnone i (mem_candidates hg hi' heq)
    simp [hi', heq] at hno

theorem ofMonomials_inTurn (ts : List (Monomial κ)) : (ofMonomials ts).InTurn := by
  induction ts using List.reverseRecOn with
  | nil =>
    intro h
    simp [ofMonomials, empty]
  | append_singleton ts t ih =>
    rw [ofMonomials_append_singleton]
    exact insert_inTurn ih t

theorem ofMonomials_eq_scan [LawfulOrderKey κ] (ts : List (Monomial κ)) :
    (ofMonomials ts).members.toList = scanTerms ts := by
  induction ts using List.reverseRecOn with
  | nil => rfl
  | append_singleton ts t ih =>
    rw [ofMonomials_append_singleton, scanTerms, List.foldl_concat, ← scanTerms, ← ih]
    exact insert_eq_addTerm (ofMonomials_indexed ts) (ofMonomials_inTurn ts) t

end Groups

/--
Coefficients that test equal, such as those that differ in the signs of zeros, have one digest and
one order key. The groups of a sum are those of a scan that compares factors, for the digest and for
every other key that is the same for what tests equal, however often it confuses what is not.
-/
theorem groupTerms_eq_scan :
    (∀ a b : Coeff ComplexDouble, (a == b) = true →
      a.digest = b.digest ∧ a.orderKey = b.orderKey) ∧
    (∀ e : Coeff ComplexDouble, e.groupTerms = scanTerms (e.terms.map monomial)) ∧
    ∀ key : Coeff ComplexDouble → Nat, (∀ a b, (a == b) = true → key a = key b) →
      ∀ e : Coeff ComplexDouble,
        @groupTerms ComplexDouble Double _ _ ⟨key⟩ e = scanTerms (e.terms.map monomial) := by
  refine ⟨fun a b h => ⟨?_, orderKey_of_beq h⟩, fun e => Groups.ofMonomials_eq_scan _, ?_⟩
  · exact congrArg Digest.finish (feed_of_beq h .empty)
  · intro key hkey e
    let _ : OrderKey ComplexDouble := ⟨key⟩
    have : LawfulOrderKey ComplexDouble := ⟨fun h => hkey _ _ h⟩
    exact Groups.ofMonomials_eq_scan _

/-- The sine of a zero with the given sign. -/
def sineOfZero (x : Double) : Coeff ComplexDouble :=
  app .sin (lit ⟨x, 0⟩)

/-- Under one key for everything, only the sines of both zeros are one group. -/
theorem groupTerms_eq_scan_zeros :
    (sineOfZero 0 == sineOfZero (-0)) = true ∧
    (sineOfZero 0).digest = (sineOfZero (-0)).digest ∧
    @groupTerms ComplexDouble Double _ _ ⟨fun _ => 0⟩
      (add (add (sineOfZero 0) (var "x")) (sineOfZero (-0))) =
        [(1 + 1, [sineOfZero 0]), (1, [var "x"])] := by
  have heq : (sineOfZero 0 == sineOfZero (-0)) = true := by decide +kernel
  obtain ⟨hkeys, -, hgroups⟩ := groupTerms_eq_scan
  refine ⟨heq, (hkeys _ _ heq).1, (hgroups (fun _ => 0) (fun _ _ _ => rfl) _).trans ?_⟩
  have hfactors : ([sineOfZero 0] == [sineOfZero (-0)]) = true := by decide +kernel
  have hother : ([sineOfZero 0] == [var "x"]) = false := rfl
  have hterms : (add (add (sineOfZero 0) (var "x")) (sineOfZero (-0))).terms.map monomial =
      [((1 : ComplexDouble), [sineOfZero 0]), (1, [var "x"]), (1, [sineOfZero (-0)])] := rfl
  simp only [hterms, scanTerms, List.foldl_cons, List.foldl_nil, addTerm, hother, hfactors,
    Bool.false_eq_true, if_false, if_true]

end SpinBoson.Coeff
