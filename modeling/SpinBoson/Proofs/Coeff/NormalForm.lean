import Mathlib.Data.Prod.Lex
import SpinBoson.Proofs.Coeff.Text
import SpinBoson.Proofs.Uncapped

/-!
The repetitions of normalization end without caps as long as literals stay finite, whatever the keys
that operands are sorted by. If keys do not tell apart what tests equal, what normalization then
leads to is a coefficient that no rule changes at any node, and what it does not change in the eyes
of the test it does not change at all.
-/
namespace SpinBoson.Coeff

open Pass

variable {κ ρ : Type} [RealScalar ρ] [Scalar κ ρ] [OrderKey κ]

/-- Whether no rule of the normal form changes a coefficient at any node. -/
structure InNormalForm (tolerance : ρ) (e : Coeff κ) : Prop where
  textFree : e.TextFree
  distributed : e.AllNodes fun x => x.distribute = x
  inOrder : e.AllNodes InOrder
  collected : e.AllNodes fun x => x.collect tolerance = x

/-- Normal forms with finite literals. -/
structure IsStable (tolerance : ρ) (e : Coeff κ) : Prop where
  normal : e.InNormalForm tolerance
  finite : e.FiniteLiterals

theorem inNormalForm_lit (tolerance : ρ) (z : κ) : (lit z).InNormalForm tolerance :=
  ⟨textFree_lit z, rfl, trivial, rfl⟩

/-- Whether normalization ends by itself, over finite literals all the way. -/
def Settles (s : Settings ρ) (e : Coeff κ) : Prop :=
  (normalization s).Settles (fun _ e => e.FiniteLiterals) e

omit [RealScalar ρ] [Scalar κ ρ] [OrderKey κ] in
/-- A property of all nodes holds for the trees below all nodes. -/
theorem AllNodes.deep {P : Coeff κ → Prop} {e : Coeff κ} (h : e.AllNodes P) :
    e.AllNodes fun x => x.AllNodes P := by
  induction e with
  | lit | var | raw => exact h
  | neg e ih | app f e ih => exact ⟨h, ih h.2⟩
  | bin op a b iha ihb => exact ⟨h, iha h.2.1, ihb h.2.2⟩

omit [RealScalar ρ] [Scalar κ ρ] [OrderKey κ] in
theorem AllNodes.and {P Q : Coeff κ → Prop} {e : Coeff κ} (hP : e.AllNodes P)
    (hQ : e.AllNodes Q) : e.AllNodes fun x => P x ∧ Q x := by
  induction e with
  | lit | var | raw => exact ⟨hP, hQ⟩
  | neg e ih | app f e ih => exact ⟨⟨hP.1, hQ.1⟩, ih hP.2 hQ.2⟩
  | bin op a b iha ihb => exact ⟨⟨hP.1, hQ.1⟩, iha hP.2.1 hQ.2.1, ihb hP.2.2 hQ.2.2⟩

omit [RealScalar ρ] [Scalar κ ρ] [OrderKey κ] in
theorem allNodes_of_forall {P : Coeff κ → Prop} (h : ∀ x, P x) (e : Coeff κ) : e.AllNodes P := by
  induction e with
  | lit | var | raw => exact h _
  | neg e ih | app f e ih => exact ⟨h _, ih⟩
  | bin op a b iha ihb => exact ⟨h _, iha, ihb⟩

omit [OrderKey κ] in
theorem rewrite_distribute_lighter (e : Coeff κ) :
    (e.rewrite distribute = e ∧ e.AllNodes fun x => x.distribute = x) ∨
      (e.rewrite distribute).weight < e.weight := by
  refine rewrite_eq_or_lighter (fun x => ?_) (allNodes_of_forall distribute_lighter e)
  rcases distribute_lighter x with h | h
  · rw [h]
  · exact Nat.le_of_lt h

/-- Normalization reads all text first. -/
theorem readable_of_normalize {s : Settings ρ} {c n : Coeff κ}
    (h : c.normalize s = .ok n) : c.Readable := by
  obtain ⟨b, hb⟩ := exists_run_of_fixedPoint h
  obtain ⟨e, he, -⟩ := bind_eq_ok.mp hb
  exact readable_of_up he

section Laws

variable [LawfulTest κ]

theorem rewrite_collect_lighter (tolerance : ρ) {e : Coeff κ} (h : e.AllNodes Gathered)
    (hfin : e.FiniteLiterals) :
    (e.rewrite (collect tolerance) = e ∧ e.AllNodes fun x => x.collect tolerance = x) ∨
      (e.rewrite (collect tolerance)).weight < e.weight :=
  rewrite_eq_or_lighter (collect_weight_le tolerance)
    ((h.deep.and (AllNodes.deep hfin)).imp fun _ hx => collect_lighter tolerance hx.1 hx.2)

/-! Measures -/

open Classical in
/-- A weight, and behind it whether a property does not hold yet. -/
noncomputable def weightUntil (p : Coeff κ → Prop) (e : Coeff κ) : Nat ×ₗ Nat :=
  toLex (e.weight, if p e then 0 else 1)

omit [RealScalar ρ] [Scalar κ ρ] [OrderKey κ] [LawfulTest κ] in
theorem weightUntil_lt {p : Coeff κ → Prop} {e e' : Coeff κ}
    (h : e'.weight < e.weight ∨ e'.weight = e.weight ∧ p e' ∧ ¬ p e) :
    weightUntil p e' < weightUntil p e := by
  refine Prod.Lex.toLex_lt_toLex.mpr (h.imp id fun ⟨heq, hp, hnot⟩ => ⟨heq, ?_⟩)
  dsimp only
  rw [if_pos hp, if_neg hnot]
  exact Nat.one_pos

omit [RealScalar ρ] [Scalar κ ρ] [OrderKey κ] [LawfulTest κ] in
theorem wellFounded_weightUntil (p : Coeff κ → Prop) :
    WellFounded fun e' e => weightUntil p e' < weightUntil p e :=
  InvImage.wf (weightUntil p) wellFounded_lt

/-! The stages of one round -/

/-- The rounds are run on values with finite literals. -/
abbrev finite : String → Coeff κ → Prop :=
  fun _ e => e.FiniteLiterals

omit [LawfulTest κ] [OrderKey κ] in
theorem run_ofCoeff (name : String) (f : Coeff κ → Coeff κ) (e : Coeff κ) :
    (Pass.ofRule .post (Rule.ofCoeff name fun e => .ok (f e) : Rule κ (Except Error)) :
      Pass (Coeff κ)).run e = .ok (e.rewrite f) :=
  up_ofCoeff name f e

omit [OrderKey κ] in
/-- A walk is repeated to an end if it lowers a measure of finite coefficients that it changes. -/
theorem halts_ofCoeff {cap : Nat} {name : String} {f : Coeff κ → Coeff κ} {P Q : Coeff κ → Prop}
    {lt : Coeff κ → Coeff κ → Prop} (hlt : WellFounded lt)
    (h : ∀ x, P x → x.FiniteLiterals → P (x.rewrite f) ∧
      ((x.rewrite f == x) = true → Q (x.rewrite f)) ∧ (x.rewrite f = x ∨ lt (x.rewrite f) x)) :
    (fixedPoint cap (.ofRule .post (Rule.ofCoeff name fun e => .ok (f e) : Rule κ (Except Error))) :
      Pass (Coeff κ)).Halts FiniteLiterals P Q := by
  refine halts_fixedPoint hlt fun x hx hmeets => ?_
  have hfin : x.FiniteLiterals := hmeets x rfl
  obtain ⟨hP, hQ, hstep⟩ := h x hx hfin
  refine ⟨x.rewrite f, run_ofCoeff name f x, hP, hQ, hstep.imp (fun heq => ?_) id⟩
  rw [heq]
  exact beq_self_of_finite hfin

/-- Distributing `e` as long as anything changes. -/
structure Distributed (e d : Coeff κ) : Prop where
  textFree : d.TextFree
  lighter : d = e ∨ d.weight < e.weight
  distributed : d.AllNodes fun x => x.distribute = x

omit [OrderKey κ] in
theorem distribute_halts (cap : Nat) (e : Coeff κ) :
    (fixedPoint cap (.ofRule .post (distributeRule (κ := κ))) : Pass (Coeff κ)).Halts FiniteLiterals
      (fun x => x.TextFree ∧ (x = e ∨ x.weight < e.weight)) (Distributed e) := by
  refine halts_ofCoeff (InvImage.wf weight Nat.lt_wfRel.wf) fun x ⟨hfree, hx⟩ _ => ?_
  have hfree' : (x.rewrite distribute).TextFree := textFree_rewrite (fun _ => textFree_distribute) hfree
  rcases rewrite_distribute_lighter x with ⟨heq, hall⟩ | hlt
  · rw [heq]
    exact ⟨⟨hfree, hx⟩, fun _ => ⟨hfree, hx, hall⟩, .inl rfl⟩
  · refine ⟨⟨hfree', .inr ?_⟩, fun hbeq => ?_, .inr hlt⟩
    · rcases hx with rfl | hx
      · exact hlt
      · exact Nat.lt_trans hlt hx
    · rw [weight_of_beq hbeq] at hlt
      exact absurd hlt (Nat.lt_irrefl _)

/-- Sorting after distributing. -/
def Sorted (e o : Coeff κ) : Prop :=
  ∃ d, Distributed e d ∧ o = d.rewrite sortChain

theorem sort_halts (cap : Nat) (e : Coeff κ) :
    (fixedPoint cap (.ofRule .post (sortRule (κ := κ))) : Pass (Coeff κ)).Halts FiniteLiterals
      (Distributed e) (Sorted e) := by
  intro d hd
  refine halts_ofCoeff (P := fun x => x = d ∨ x = d.rewrite sortChain)
    (wellFounded_weightUntil IsSorted) (fun x hx _ => ?_) d (.inl rfl)
  have hsorted : x.rewrite sortChain = d.rewrite sortChain := by
    rcases hx with rfl | rfl
    · rfl
    · exact rewrite_sortChain_idem d
  refine ⟨.inr hsorted, fun _ => ⟨d, hd, hsorted⟩, ?_⟩
  by_cases hx : x.IsSorted
  · exact .inl (rewrite_of_allNodes hx)
  · exact .inr (weightUntil_lt
      (.inr ⟨weight_rewrite_sortChain x, rewrite_sortChain_isSorted x, hx⟩))

/-- What a round leaves of `e`: something lighter, or `e` with sorted operands if it was
distributed. -/
structure Rounded (tolerance : ρ) (e b : Coeff κ) : Prop where
  textFree : b.TextFree
  lighter : b.weight < e.weight ∨
    (e.AllNodes fun x => x.distribute = x) ∧ b = e.rewrite sortChain ∧
      b.AllNodes fun x => x.collect tolerance = x

/-- Collecting lowers the weight, or else it gathers what was not gathered. -/
theorem collect_descends (tolerance : ρ) {x : Coeff κ} (hfin : x.FiniteLiterals) :
    x.rewrite (collect tolerance) = x ∨
      weightUntil (AllNodes Gathered) (x.rewrite (collect tolerance)) <
        weightUntil (AllNodes Gathered) x := by
  by_cases hgathered : x.AllNodes Gathered
  · rcases rewrite_collect_lighter tolerance hgathered hfin with ⟨heq, -⟩ | hlt
    · exact .inl heq
    · exact .inr (weightUntil_lt (.inl hlt))
  · refine .inr (weightUntil_lt ?_)
    rcases Nat.lt_or_eq_of_le (rewrite_weight_le (collect_weight_le tolerance) x) with hlt | heq
    · exact .inl hlt
    · exact .inr ⟨heq, rewrite_collect_gathered tolerance heq, hgathered⟩

theorem collect_halts (cap : Nat) (tolerance : ρ) (e : Coeff κ) :
    (fixedPoint cap (.ofRule .post (collectRule (κ := κ) tolerance)) : Pass (Coeff κ)).Halts
      FiniteLiterals (Sorted e) (Rounded tolerance e) := by
  rintro o ⟨d, hd, ho⟩
  have hfreeo : o.TextFree := ho ▸ textFree_rewrite (fun _ => textFree_sortChain) hd.textFree
  have hgathered : o.AllNodes Gathered :=
    ho ▸ (rewrite_sortChain_isSorted d).imp fun _ => gathered_of_sortChain
  have hweight : o.weight = d.weight := by rw [ho, weight_rewrite_sortChain]
  have hle : o.weight ≤ e.weight := by
    rw [hweight]
    rcases hd.lighter with rfl | hlt
    · exact Nat.le_refl _
    · exact Nat.le_of_lt hlt
  refine halts_ofCoeff (P := fun x => x.TextFree ∧ (x = o ∨ x.weight < o.weight))
    (wellFounded_weightUntil (AllNodes Gathered))
    (fun x ⟨hfree, hx⟩ hfin => and_assoc.mp ⟨?_, collect_descends tolerance hfin⟩) o ⟨hfreeo, .inl rfl⟩
  have hfree' : (x.rewrite (collect tolerance)).TextFree :=
    textFree_rewrite (fun _ => textFree_collect tolerance) hfree
  rcases hx with rfl | hx
  · rcases rewrite_collect_lighter tolerance hgathered hfin with ⟨heq, hall⟩ | hlt
    · rw [heq]
      refine ⟨⟨hfree, .inl rfl⟩, fun _ => ⟨hfree, ?_⟩⟩
      rcases hd.lighter with rfl | hlt
      · exact .inr ⟨hd.distributed, ho, hall⟩
      · exact .inl (hweight ▸ hlt)
    · exact ⟨⟨hfree', .inr hlt⟩, fun _ => ⟨hfree', .inl (Nat.lt_of_lt_of_le hlt hle)⟩⟩
  · have hlt : (x.rewrite (collect tolerance)).weight < o.weight :=
      Nat.lt_of_le_of_lt (rewrite_weight_le (collect_weight_le tolerance) x) hx
    exact ⟨⟨hfree', .inr hlt⟩, fun _ => ⟨hfree', .inl (Nat.lt_of_lt_of_le hlt hle)⟩⟩

/-- One round on a readable coefficient; one without text is where the round starts. -/
theorem round_halts (s : Settings ρ) {c : Coeff κ} (hc : c.Readable) :
    HaltsAll FiniteLiterals (fun x => x = c)
      [.ofRule .post (readRawRule (κ := κ)),
        .fixedPoint s.maxIterations (.ofRule .post (distributeRule (κ := κ))),
        .fixedPoint s.maxIterations (.ofRule .post (sortRule (κ := κ))),
        .fixedPoint s.maxIterations (.ofRule .post (collectRule (κ := κ) s.tolerance))]
      (fun b => b.TextFree ∧ (c.TextFree → Rounded s.tolerance c b)) := by
  obtain ⟨e, he, hfree⟩ := up_readRaw hc
  have hec : c.TextFree → e = c := fun h =>
    Except.ok.inj (he.symm.trans (up_readRaw_of_textFree h))
  refine haltsAll_cons (Q := fun x => x.TextFree ∧ (x = e ∨ x.weight < e.weight))
    (halts_step ?_) ?_
  · rintro x rfl _
    exact ⟨e, he, hfree, .inl rfl⟩
  · refine haltsAll_cons (distribute_halts _ e) (haltsAll_cons (sort_halts _ e)
      (haltsAll_cons (collect_halts _ _ e) (haltsAll_nil fun b hb => ?_)))
    exact ⟨hb.textFree, fun h => hec h ▸ hb⟩

/-! All rounds -/

/-- What rounds leave of a coefficient without text. -/
def Reached (c x : Coeff κ) : Prop :=
  x.weight < c.weight ∨ x = c ∨ x = c.rewrite sortChain

omit [LawfulTest κ] in
theorem reached_round {tolerance : ρ} {c x b : Coeff κ} (hx : Reached c x)
    (hb : Rounded tolerance x b) : Reached c b := by
  rcases hb.lighter with hlt | ⟨_, rfl, _⟩
  · left
    rcases hx with hx | rfl | rfl
    · exact Nat.lt_trans hlt hx
    · exact hlt
    · rwa [weight_rewrite_sortChain] at hlt
  · rcases hx with hx | rfl | rfl
    · exact .inl (by rwa [weight_rewrite_sortChain])
    · exact .inr (.inr rfl)
    · exact .inr (.inr (rewrite_sortChain_idem c))

open Classical in
/-- What a round lowers: unread text, then the weight, then operands out of order. -/
noncomputable def roundMeasure (c : Coeff κ) : Nat ×ₗ Nat ×ₗ Nat :=
  toLex (if c.TextFree then 0 else 1, weightUntil IsSorted c)

omit [LawfulTest κ] in
theorem round_descends {tolerance : ρ} {x b : Coeff κ} (hfree : b.TextFree)
    (h : x.TextFree → Rounded tolerance x b) : b = x ∨ roundMeasure b < roundMeasure x := by
  unfold roundMeasure
  by_cases hx : x.TextFree
  · rw [if_pos hfree, if_pos hx]
    have hweight {y z : Coeff κ} (hlt : weightUntil IsSorted y < weightUntil IsSorted z) :
        toLex (0, weightUntil IsSorted y) < toLex (0, weightUntil IsSorted z) :=
      Prod.Lex.toLex_lt_toLex.mpr (.inr ⟨rfl, hlt⟩)
    rcases (h hx).lighter with hlt | ⟨-, rfl, -⟩
    · exact .inr (hweight (weightUntil_lt (.inl hlt)))
    · by_cases hsorted : x.IsSorted
      · exact .inl (rewrite_of_allNodes hsorted)
      · exact .inr (hweight (weightUntil_lt
          (.inr ⟨weight_rewrite_sortChain x, rewrite_sortChain_isSorted x, hsorted⟩)))
  · rw [if_pos hfree, if_neg hx]
    exact .inr (Prod.Lex.toLex_lt_toLex.mpr (.inl Nat.one_pos))

/-- What normalization of `c` ends with: a round on some `x` that changes nothing in the eyes of
the test. -/
def EndsWith (tolerance : ρ) (c n : Coeff κ) : Prop :=
  ∃ x, x.FiniteLiterals ∧ Rounded tolerance x n ∧ (n == x) = true ∧ (c.TextFree → Reached c n)

/-- Normalization halts on every readable coefficient as long as literals stay finite. -/
theorem normalization_halts (s : Settings ρ) {c : Coeff κ} (hc : c.Readable) :
    (normalization s).Halts FiniteLiterals (fun x => x = c) (EndsWith s.tolerance c) := by
  intro a ha
  rw [ha]
  refine halts_fixedPoint (P := fun x => x.Readable ∧ (c.TextFree → x.TextFree ∧ Reached c x))
    (Q := EndsWith s.tolerance c) (InvImage.wf roundMeasure wellFounded_lt) ?_ c
    ⟨hc, fun h => ⟨h, .inr (.inl rfl)⟩⟩
  rintro x ⟨hread, hx⟩ hmeets
  obtain ⟨b, hb, hfree, hround⟩ := round_halts s hread x rfl hmeets
  have hfin : x.FiniteLiterals := hmeets x (.inl rfl)
  have hreach : c.TextFree → Reached c b := fun h =>
    reached_round (hx h).2 (hround (hx h).1)
  refine ⟨b, hb, ⟨hfree.readable, fun h => ⟨hfree, hreach h⟩⟩, fun hbeq => ?_, ?_⟩
  · exact ⟨x, hfin, hround (textFree_of_beq hbeq hfree), hbeq, hreach⟩
  · refine (round_descends hfree hround).imp (fun heq => ?_) id
    rw [heq]
    exact beq_self_of_finite hfin

variable [LawfulOrderKey κ]

omit [LawfulTest κ] in
/-- A round that changes nothing in the eyes of the test changes nothing at all. -/
theorem eq_of_round {tolerance : ρ} {x b : Coeff κ} (hb : Rounded tolerance x b)
    (hbeq : (b == x) = true) : b = x := by
  rcases hb.lighter with hlt | ⟨-, rfl, -⟩
  · rw [weight_of_beq hbeq] at hlt
    exact absurd hlt (Nat.lt_irrefl _)
  · exact rewrite_sortChain_of_beq hbeq

omit [LawfulTest κ] in
/-- What a round does not change is a normal form. -/
theorem inNormalForm_of_round {tolerance : ρ} {x : Coeff κ} (hx : Rounded tolerance x x) :
    x.InNormalForm tolerance := by
  rcases hx.lighter with hlt | ⟨hdist, heq, hcoll⟩
  · exact absurd hlt (Nat.lt_irrefl _)
  · exact ⟨hx.textFree, hdist, heq ▸ rewrite_sortChain_inOrder x, hcoll⟩

/--
Normalization that ends by itself over finite literals succeeds with a normal form, and with the
coefficient itself if the two test equal.
-/
theorem normalize_settled {s : Settings ρ} {c : Coeff κ} (hc : c.Readable) (hs : c.Settles s) :
    ∃ n, c.normalize s = .ok n ∧ n.IsStable s.tolerance ∧ ((n == c) = true → n = c) := by
  obtain ⟨n, hn, x, hfin, hround, hbeq, hreach⟩ := (normalization_halts s hc).achieves c rfl hs
  obtain rfl := eq_of_round hround hbeq
  refine ⟨n, hn, ⟨inNormalForm_of_round hround, hfin⟩, fun hnc => ?_⟩
  rcases hreach (textFree_of_beq hnc hround.textFree) with hlt | rfl | rfl
  · rw [weight_of_beq hnc] at hlt
    exact absurd hlt (Nat.lt_irrefl _)
  · rfl
  · exact rewrite_sortChain_of_beq hnc

omit [LawfulTest κ] [LawfulOrderKey κ] in
/-- Normalization leaves a normal form alone that equals itself. -/
theorem InNormalForm.leavesAlone {s : Settings ρ} {nested : String → Coeff κ → Prop} {n : Coeff κ}
    (h : n.InNormalForm s.tolerance) (hself : (n == n) = true) (hnested : ∀ name, nested name n) :
    (normalization s).LeavesAlone nested n := by
  have hrepeat {f : Coeff κ → Coeff κ} {name : String} (hf : n.rewrite f = n) :
      (fixedPoint s.maxIterations
        (.ofRule .post (Rule.ofCoeff name fun e => .ok (f e) : Rule κ (Except Error)))).LeavesAlone
          nested n :=
    leavesAlone_fixedPoint
      (leavesAlone_step ((run_ofCoeff name f n).trans (congrArg _ hf)) (hnested _)) hself
  refine leavesAlone_fixedPoint (leavesAlone_chain ?_) hself
  simp only [List.forall_mem_cons, List.not_mem_nil, false_imp_iff, implies_true, and_true]
  refine ⟨?_, hrepeat ?_, hrepeat ?_, hrepeat ?_⟩
  · exact leavesAlone_step (up_readRaw_of_textFree h.textFree) (hnested _)
  · exact rewrite_of_allNodes h.distributed
  · exact rewrite_sortChain_of_inOrder h.inOrder
  · exact rewrite_of_allNodes h.collected

omit [LawfulTest κ] [LawfulOrderKey κ] in
/-- A normal form that equals itself is what normalization makes of it. -/
theorem normalize_of_inNormalForm {s : Settings ρ} {n : Coeff κ} (h : n.InNormalForm s.tolerance)
    (hself : (n == n) = true) : n.normalize s = .ok n :=
  have hleft : (normalization s).LeavesAlone (fun _ _ => True) n :=
    h.leavesAlone hself fun _ => trivial
  hleft.1

omit [LawfulOrderKey κ] in
theorem IsStable.settles {s : Settings ρ} {n : Coeff κ} (h : n.IsStable s.tolerance) :
    n.Settles s :=
  (h.normal.leavesAlone (beq_self_of_finite h.finite) fun _ => h.finite).2

end Laws

end SpinBoson.Coeff
