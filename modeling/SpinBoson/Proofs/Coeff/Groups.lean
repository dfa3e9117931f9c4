import SpinBoson.Proofs.Coeff.Order
import SpinBoson.Proofs.ExactScalar

/-!
Groups of like terms. A term is added to the number of one group or it opens another; what grouping
keeps follows from that, one term after the other.
-/
namespace SpinBoson.Coeff.Groups

variable {κ ρ : Type} [RealScalar ρ] [Scalar κ ρ] [OrderKey κ]

theorem ofMonomials_append_singleton (ts : List (Monomial κ)) (t : Monomial κ) :
    ofMonomials (ts ++ [t]) = (ofMonomials ts).insert t :=
  List.foldl_concat insert empty t ts

/--
A term is added to a group with its factors, or it opens one behind the others if none is found at
its hash.
-/
theorem insert_members (g : Groups κ) (t : Monomial κ) :
    (∃ before m after, g.members.toList = before ++ m :: after ∧ (m.2 == t.2) = true ∧
      (g.insert t).members.toList = before ++ (m.1 + t.1, m.2) :: after) ∨
    (∀ i ∈ (g.places[hash t.2]?).getD [], ∀ m, g.members[i]? = some m → ¬ (m.2 == t.2) = true) ∧
      (g.insert t).members.toList = g.members.toList ++ [t] := by
  unfold insert
  dsimp only
  split
  · rename_i i hfind
    have hi := List.find?_some hfind
    cases hm : g.members[i]? with
    | none => simp [hm] at hi
    | some m =>
      simp only [hm] at hi
      have hget : g.members.toList[i]? = some m := by simpa using hm
      obtain ⟨hlt, -⟩ := List.getElem?_eq_some_iff.mp hget
      obtain ⟨before, n, after, hsplit, hlen, hmodify⟩ :=
        List.exists_of_modify (fun m => (m.1 + t.1, m.2)) hlt
      obtain rfl : n = m := by simpa [hsplit, ← hlen] using hget
      exact .inl ⟨before, n, after, hsplit, hi, Array.toList_modify.trans hmodify⟩
  · rename_i hnone
    refine .inr ⟨fun i hi m hm heq => ?_, by simp⟩
    have hfound := List.find?_eq_none.mp hnone i hi
    simp [hm, heq] at hfound

/-- Every group has the factors of some term. -/
theorem mem_of_mem_ofMonomials {ts : List (Monomial κ)} {m : Monomial κ}
    (h : m ∈ (ofMonomials ts).members.toList) : ∃ t ∈ ts, t.2 = m.2 := by
  induction ts using List.reverseRecOn generalizing m with
  | nil => simp [ofMonomials, empty] at h
  | append_singleton ts t ih =>
    have hrest {n : Monomial κ} (hn : n ∈ (ofMonomials ts).members.toList) :
        ∃ u ∈ ts ++ [t], u.2 = n.2 := by
      obtain ⟨u, hu, heq⟩ := ih hn
      exact ⟨u, List.mem_append_left _ hu, heq⟩
    rw [ofMonomials_append_singleton] at h
    rcases (ofMonomials ts).insert_members t with ⟨before, n, after, hg, -, hinsert⟩ | ⟨-, hinsert⟩
    · rw [hinsert, List.mem_append, List.mem_cons] at h
      rw [hg] at hrest
      rcases h with h | rfl | h
      · exact hrest (List.mem_append_left _ h)
      · exact hrest (n := n) (List.mem_append_right _ List.mem_cons_self)
      · exact hrest (List.mem_append_right _ (List.mem_cons_of_mem _ h))
    · rw [hinsert, List.mem_append, List.mem_singleton] at h
      rcases h with h | rfl
      · exact hrest h
      · exact ⟨m, List.mem_append_right _ (List.mem_singleton_self m), rfl⟩

theorem length_ofMonomials_le (ts : List (Monomial κ)) :
    (ofMonomials ts).members.toList.length ≤ ts.length := by
  induction ts using List.reverseRecOn with
  | nil => exact Nat.le_refl _
  | append_singleton ts t ih =>
    rw [ofMonomials_append_singleton, List.length_append, List.length_singleton]
    rcases (ofMonomials ts).insert_members t with ⟨before, m, after, hg, -, hinsert⟩ | ⟨-, hinsert⟩
    · rw [hg, List.length_append, List.length_cons] at ih
      rw [hinsert, List.length_append, List.length_cons]
      exact Nat.le_succ_of_le ih
    · rw [hinsert, List.length_append, List.length_singleton]
      exact Nat.succ_le_succ ih

/-! The index -/

/-- Whether every group is found at the hash of its factors. -/
def Indexed (g : Groups κ) : Prop :=
  ∀ i m, g.members[i]? = some m → i ∈ (g.places[hash m.2]?).getD []

theorem insert_indexed {g : Groups κ} (hg : g.Indexed) (t : Monomial κ) :
    (g.insert t).Indexed := by
  unfold insert
  dsimp only
  split
  · rename_i j _
    intro i m hm
    rw [Array.getElem?_modify] at hm
    split at hm
    · obtain ⟨m', hm', rfl⟩ := Option.map_eq_some_iff.mp hm
      exact hg i m' hm'
    · exact hg i m hm
  · intro i m hm
    rw [Array.getElem?_push] at hm
    dsimp only at hm ⊢
    rw [Std.HashMap.getElem?_insert]
    split at hm
    · rename_i hlast
      obtain rfl : t = m := Option.some.inj hm
      simp [hlast]
    · have hplace := hg i m hm
      by_cases hhash : hash t.2 = hash m.2
      · rw [if_pos (by simpa using hhash), hhash]
        exact List.mem_append_left _ hplace
      · rw [if_neg (by simpa using hhash)]
        exact hplace

theorem ofMonomials_indexed (ts : List (Monomial κ)) : (ofMonomials ts).Indexed := by
  induction ts using List.reverseRecOn with
  | nil =>
    intro i m hm
    simp [ofMonomials, empty] at hm
  | append_singleton ts t ih =>
    rw [ofMonomials_append_singleton]
    exact insert_indexed ih t

section Keys

variable [LawfulOrderKey κ]

/-- Factors that test equal have one hash. -/
theorem hash_congr {es es' : List (Coeff κ)} (h : (es == es') = true) : hash es = hash es' := by
  unfold hash
  generalize (0 : UInt64) = start
  induction es generalizing es' start with
  | nil =>
    cases es' with
    | nil => rfl
    | cons => cases h
  | cons e es ih =>
    cases es' with
    | nil => cases h
    | cons e' es' =>
      obtain ⟨he, hes⟩ := Bool.and_eq_true_iff.mp h
      rw [List.foldl_cons, List.foldl_cons, LawfulOrderKey.key_congr he]
      exact ih hes _

/-- Every group with the factors of a term is found at the hash of the term. -/
theorem mem_candidates {g : Groups κ} (hg : g.Indexed) {t m : Monomial κ} {i : Nat}
    (hm : g.members[i]? = some m) (heq : (m.2 == t.2) = true) :
    i ∈ (g.places[hash t.2]?).getD [] := by
  rw [← hash_congr heq]
  exact hg i m hm

/-- A term is added to a group with its factors, or it opens one if there is none. -/
theorem insert_cases {g : Groups κ} (hg : g.Indexed) (t : Monomial κ) :
    (∃ before m after, g.members.toList = before ++ m :: after ∧ (m.2 == t.2) = true ∧
      (g.insert t).members.toList = before ++ (m.1 + t.1, m.2) :: after) ∨
    (∀ m ∈ g.members.toList, ¬ (m.2 == t.2) = true) ∧
      (g.insert t).members.toList = g.members.toList ++ [t] := by
  refine (g.insert_members t).imp_right fun ⟨hnone, hinsert⟩ => ⟨fun m hm heq => ?_, hinsert⟩
  obtain ⟨i, hi⟩ := List.mem_iff_getElem?.mp hm
  have hi' : g.members[i]? = some m := by simpa using hi
  exact hnone i (mem_candidates hg hi' heq) m hi' heq

/-- Monomials that grouping leaves as they are have different factors. -/
theorem pairwise_of_ofMonomials {ts : List (Monomial κ)}
    (h : (ofMonomials ts).members.toList = ts) : ts.Pairwise fun s t => ¬ (s.2 == t.2) = true := by
  induction ts using List.reverseRecOn with
  | nil => exact .nil
  | append_singleton ts t ih =>
    rw [ofMonomials_append_singleton] at h
    rcases insert_cases (ofMonomials_indexed ts) t with
      ⟨before, m, after, hg, -, hinsert⟩ | ⟨hnew, hinsert⟩
    · -- a group that takes in a term leaves one group less than there are terms
      have hlen := length_ofMonomials_le ts
      have hlen' := congrArg List.length (hinsert.symm.trans h)
      simp only [hg, List.length_append, List.length_cons] at hlen hlen'
      omega
    · obtain ⟨hmembers, -⟩ := List.append_inj' (hinsert.symm.trans h) rfl
      rw [hmembers] at hnew
      refine List.pairwise_append.mpr ⟨ih hmembers, List.pairwise_singleton _ t, ?_⟩
      intro m hm u hu
      rw [List.mem_singleton.mp hu]
      exact hnew m hm

/-- The factors of all groups. -/
def remainders (g : Groups κ) : List (List (Coeff κ)) :=
  g.members.toList.map Prod.snd

variable [LawfulBEq κ]

theorem remainders_insert {g : Groups κ} (hg : g.Indexed) (t : Monomial κ) :
    (g.insert t).remainders = g.remainders ∧ t.2 ∈ g.remainders ∨
      (g.insert t).remainders = g.remainders ++ [t.2] ∧ t.2 ∉ g.remainders := by
  unfold remainders
  rcases insert_cases hg t with ⟨before, m, after, hmembers, heq, hinsert⟩ | ⟨hnew, hinsert⟩
  · left
    rw [hinsert, hmembers, ← eq_of_beq heq]
    exact ⟨by simp, List.mem_map_of_mem (List.mem_append_right _ List.mem_cons_self)⟩
  · refine .inr ⟨by rw [hinsert, List.map_append, List.map_singleton], fun hmem => ?_⟩
    obtain ⟨m, hm, heq⟩ := List.mem_map.mp hmem
    exact hnew m hm (beq_iff_eq.mpr heq)

/-- Grouping leaves each list of factors once. -/
theorem ofMonomials_nodup (ts : List (Monomial κ)) : (ofMonomials ts).remainders.Nodup := by
  induction ts using List.reverseRecOn with
  | nil => exact List.nodup_nil
  | append_singleton ts t ih =>
    rw [ofMonomials_append_singleton]
    rcases remainders_insert (ofMonomials_indexed ts) t with ⟨heq, -⟩ | ⟨heq, hnew⟩
    · rwa [heq]
    · rw [heq]
      exact List.nodup_append.mpr ⟨ih, List.pairwise_singleton _ _,
        fun a ha b hb hab => hnew (List.mem_singleton.mp hb ▸ hab ▸ ha)⟩

/-- Monomials with different factors are left as they are. -/
theorem ofMonomials_of_nodup {ts : List (Monomial κ)} (h : (ts.map Prod.snd).Nodup) :
    (ofMonomials ts).members.toList = ts := by
  induction ts using List.reverseRecOn with
  | nil => rfl
  | append_singleton ts t ih =>
    rw [List.map_append, List.map_singleton, List.nodup_append] at h
    obtain ⟨hts, -, hfresh⟩ := h
    have hg := ih hts
    rw [ofMonomials_append_singleton]
    rcases insert_cases (ofMonomials_indexed ts) t with
      ⟨before, m, after, hsplit, heq, -⟩ | ⟨-, hinsert⟩
    · have hm : m ∈ ts := by
        rw [← hg, hsplit]
        exact List.mem_append_right _ List.mem_cons_self
      exact absurd (eq_of_beq heq)
        (hfresh m.2 (List.mem_map_of_mem hm) t.2 (List.mem_singleton_self t.2))
    · rw [hinsert, hg]

end Keys

end SpinBoson.Coeff.Groups
