import Mathlib.Logic.Relation
import SpinBoson.Proofs.Canonical.Acceptance
import SpinBoson.Proofs.Rest

/-!
Passes over values that hold operators, beside the same passes over one operator. Repetitions are
the point: one that runs over a whole value goes on for as long as any of its operators changes, and
so runs more often over the others than a repetition over each of them alone.
-/
namespace SpinBoson

variable {κ ρ α : Type}

/-! Values with related operators -/

theorem forall₂_iff {β γ : Type} {R S : β → γ → Prop} (h : ∀ b c, R b c ↔ S b c) {bs : List β}
    {cs : List γ} : List.Forall₂ R bs cs ↔ List.Forall₂ S bs cs :=
  ⟨.imp fun b c => (h b c).mp, .imp fun b c => (h b c).mpr⟩

theorem forall₂_comp {β γ δ : Type} {R : β → γ → Prop} {S : γ → δ → Prop} {as : List β}
    {cs : List δ} : List.Forall₂ (Relation.Comp R S) as cs ↔
      ∃ bs, List.Forall₂ R as bs ∧ List.Forall₂ S bs cs := by
  constructor
  · intro h
    induction h with
    | nil => exact ⟨[], .nil, .nil⟩
    | cons hac _ ih =>
      obtain ⟨b, hab, hbc⟩ := hac
      obtain ⟨bs, hR, hS⟩ := ih
      exact ⟨b :: bs, .cons hab hR, .cons hbc hS⟩
  · rintro ⟨bs, hR, hS⟩
    induction hR generalizing cs with
    | nil =>
      cases hS
      exact .nil
    | cons hab _ ih =>
      cases hS with
      | cons hbc hS => exact .cons ⟨_, hab, hbc⟩ (ih hS)

namespace Container

section Replaced

variable [Walkable κ α] [Container κ α] {R S : Operator κ → Operator κ → Prop} {a c : α}

/-- Whether a value is another one with related operators in the places of its own. -/
def Replaced (R : Operator κ → Operator κ → Prop) (a b : α) : Prop :=
  ∃ xs, List.Forall₂ R (operators a) xs ∧ b = replace a xs

theorem replaced_eq {b : α} : Replaced (κ := κ) Eq a b ↔ b = a := by
  constructor
  · rintro ⟨xs, hxs, rfl⟩
    rw [List.forall₂_eq_eq_eq] at hxs
    rw [← hxs, replace_operators]
  · rintro rfl
    exact ⟨_, List.forall₂_same.mpr fun _ _ => rfl, (replace_operators b).symm⟩

theorem replaced_comp :
    Replaced (Relation.Comp R S) a c ↔ ∃ b, Replaced R a b ∧ Replaced S b c := by
  constructor
  · rintro ⟨zs, hzs, rfl⟩
    obtain ⟨ys, hR, hS⟩ := forall₂_comp.mp hzs
    have hlength : zs.length = (operators (κ := κ) a).length :=
      hS.length_eq.symm.trans hR.length_eq.symm
    refine ⟨replace a ys, ⟨ys, hR, rfl⟩, zs, ?_, ?_⟩
    · rwa [operators_replace a ys hR.length_eq.symm]
    · rw [replace_replace a ys zs hR.length_eq.symm hlength]
  · rintro ⟨_, ⟨ys, hR, rfl⟩, zs, hS, rfl⟩
    rw [operators_replace a ys hR.length_eq.symm] at hS
    have hlength : zs.length = (operators (κ := κ) a).length :=
      hS.length_eq.symm.trans hR.length_eq.symm
    exact ⟨zs, forall₂_comp.mpr ⟨ys, hR, hS⟩, replace_replace a ys zs hR.length_eq.symm hlength⟩

/-- There is a value with related operators if each operator is related to some other one. -/
theorem exists_replaced : (∃ b, Replaced R a b) ↔ ∀ x ∈ operators a, ∃ y, R x y := by
  constructor
  · rintro ⟨_, xs, hxs, -⟩ x hx
    obtain ⟨y, -, hy⟩ := exists_of_forall₂ hxs.flip hx
    exact ⟨y, hy⟩
  · intro h
    suffices ∃ xs, List.Forall₂ R (operators a) xs from
      this.imp' (replace a) fun xs hxs => ⟨xs, hxs, rfl⟩
    generalize operators (κ := κ) a = as at h
    induction as with
    | nil => exact ⟨[], .nil⟩
    | cons x xs ih =>
      rw [List.forall_mem_cons] at h
      obtain ⟨y, hy⟩ := h.1
      obtain ⟨ys, hys⟩ := ih h.2
      exact ⟨y :: ys, .cons hy hys⟩

/-! Kinds of values -/

theorem replaced_operator {x y : Operator κ} : Replaced R x y ↔ R x y := by
  constructor
  · rintro ⟨zs, hzs, rfl⟩
    obtain ⟨z, rest, hz, hrest, rfl⟩ := List.forall₂_cons_left_iff.mp hzs
    exact hz
  · intro h
    exact ⟨[y], .cons h .nil, rfl⟩

theorem operators_list (as : List (Operator κ)) : operators as = as := by
  change as.flatMap (fun a => [a]) = as
  rw [List.flatMap_singleton']

theorem replaced_list {as bs : List α} : Replaced R as bs ↔ List.Forall₂ (Replaced R) as bs := by
  constructor
  · rintro ⟨xs, hxs, rfl⟩
    induction as generalizing xs with
    | nil => exact .nil
    | cons a as ih =>
      change List.Forall₂ R (operators a ++ operators as) xs at hxs
      have hhead := List.forall₂_take (operators (κ := κ) a).length hxs
      have hrest := List.forall₂_drop (operators (κ := κ) a).length hxs
      rw [List.take_left] at hhead
      rw [List.drop_left] at hrest
      exact .cons ⟨_, hhead, rfl⟩ (ih _ hrest)
  · intro h
    induction h with
    | nil => exact ⟨[], .nil, rfl⟩
    | cons hhead _ ih =>
      obtain ⟨xs, hxs, rfl⟩ := hhead
      obtain ⟨ys, hys, rfl⟩ := ih
      exact ⟨xs ++ ys, List.rel_append hxs hys, (replaceAll_append _ _ hxs.length_eq.symm).symm⟩

theorem replaced_named {a b : String × α} : Replaced R a b ↔ b.1 = a.1 ∧ Replaced R a.2 b.2 := by
  constructor
  · rintro ⟨xs, hxs, rfl⟩
    exact ⟨rfl, xs, hxs, rfl⟩
  · obtain ⟨name, b⟩ := b
    rintro ⟨rfl, xs, hxs, rfl⟩
    exact ⟨xs, hxs, rfl⟩

/-! Steps that act on each operator alone -/

/-- Whether a step on values does to each of their operators what another one does to it alone. -/
def Pointwise (f : α → Except Error α) (g : Operator κ → Except Error (Operator κ)) : Prop :=
  ∀ a b, f a = .ok b ↔ Replaced (fun x y => g x = .ok y) a b

section Steps

variable {f f' : α → Except Error α} {g g' : Operator κ → Except Error (Operator κ)}

/-- Visits that agree with a step on all operators of a value. -/
theorem replace_mapM_iff {b : α} (h : ∀ x ∈ operators (κ := κ) a, g' x = g x) :
    replace a <$> (operators a).mapM g' = .ok b ↔ Replaced (fun x y => g x = .ok y) a b := by
  have hmapM (as : List (Operator κ)) (has : ∀ x ∈ as, g' x = g x) : as.mapM g' = as.mapM g := by
    induction as with
    | nil => rfl
    | cons x xs ih =>
      rw [List.forall_mem_cons] at has
      rw [List.mapM_cons, List.mapM_cons, has.1, ih has.2]
  rw [hmapM _ h, map_eq_pure_bind, bind_eq_ok]
  refine exists_congr fun xs => and_congr mapM_eq_ok ?_
  exact ⟨fun hb => (Except.ok.inj hb).symm, congrArg Except.ok ∘ Eq.symm⟩

theorem pointwise_ok : Pointwise (Except.ok (α := α)) (Except.ok (α := Operator κ)) := by
  intro a b
  simp only [Except.ok.injEq]
  exact eq_comm.trans replaced_eq.symm

theorem Pointwise.bind (hf : Pointwise f g) (hf' : Pointwise f' g') :
    Pointwise (fun a => f a >>= f') (fun x => g x >>= g') := by
  intro a c
  have hcomp : (fun x y => g x >>= g' = .ok y) =
      Relation.Comp (fun x y => g x = .ok y) (fun x y => g' x = .ok y) := by
    funext x y
    exact propext bind_eq_ok
  rw [hcomp, replaced_comp, bind_eq_ok]
  exact exists_congr fun b => and_congr (hf a b) (hf' b c)

theorem Pointwise.iterated (hf : Pointwise f g) (n : Nat) :
    Pointwise (iterated f n) (iterated g n) := by
  induction n with
  | zero => exact pointwise_ok
  | succ n ih => exact hf.bind ih

end Steps

end Replaced

/-! Repetitions over values that hold operators -/

section Tests

variable (κ α) in
/-- Values that test equal only if the operators in them do. -/
class TestsOperators [Walkable κ α] [Container κ α] [BEq κ] [BEq α] : Prop where
  operators_beq : ∀ {a b : α}, (a == b) = true →
    List.Forall₂ (fun x y => (x == y) = true) (operators (κ := κ) a) (operators b)

variable [BEq κ]

instance : TestsOperators κ (Operator κ) where
  operators_beq h := .cons h .nil

instance [Walkable κ α] [Container κ α] [BEq α] [TestsOperators κ α] :
    TestsOperators κ (List α) where
  operators_beq {as bs} h := by
    induction as generalizing bs with
    | nil =>
      cases bs with
      | nil => exact .nil
      | cons => cases h
    | cons a as ih =>
      cases bs with
      | nil => cases h
      | cons b bs =>
        obtain ⟨hhead, hrest⟩ := Bool.and_eq_true_iff.mp h
        exact List.rel_append (TestsOperators.operators_beq hhead) (ih hrest)

instance [Walkable κ α] [Container κ α] [BEq α] [TestsOperators κ α] :
    TestsOperators κ (String × α) where
  operators_beq h := TestsOperators.operators_beq (α := α) (Bool.and_eq_true_iff.mp h).2

instance : TestsOperators κ (Gate κ) where
  operators_beq {g h} hbeq := by
    have hfields := (Bool.and_eq_true_iff.mp hbeq).2
    exact .cons (Bool.and_eq_true_iff.mp hfields).1 .nil

instance : TestsOperators κ (Statement κ) where
  operators_beq {s t} hbeq := by
    cases s with
    | prepare | measure => cases t <;> first | exact .nil | cases hbeq
    | evolve g x =>
      cases t with
      | prepare | measure => cases hbeq
      | evolve h y =>
        exact TestsOperators.operators_beq (α := Gate κ) (Bool.and_eq_true_iff.mp hbeq).1

instance : TestsOperators κ (Circuit κ) where
  operators_beq {c d} hbeq := by
    have hfields := (Bool.and_eq_true_iff.mp hbeq).2
    exact TestsOperators.operators_beq (α := List (Statement κ)) (Bool.and_eq_true_iff.mp hfields).1

variable [Walkable κ α] [Container κ α] [BEq α] [TestsOperators κ α]
  {f : α → Except Error α} {g : Operator κ → Except Error (Operator κ)}

/-- What is steady on every operator is steady on a value. -/
theorem Pointwise.steady (hf : Pointwise f g) (hg : Steady g) : Steady f := by
  intro a b hb hbeq
  obtain ⟨xs, hxs, rfl⟩ := (hf a b).mp hb
  have htests := TestsOperators.operators_beq (κ := κ) hbeq
  rw [operators_replace a xs hxs.length_eq.symm] at htests
  have heq : List.Forall₂ Eq xs (operators a) :=
    (forall₂_both hxs.flip htests).imp fun y x h => hg x y h.1 h.2
  rw [show xs = operators a from List.forall₂_eq_eq_eq ▸ heq, replace_operators]

theorem Pointwise.fixedPoint {p : Pass α} {q : Pass (Operator κ)} (h : Pointwise p.run q.run)
    (hq : Steady q.run) (cap : Nat) :
    Pointwise (Pass.fixedPoint cap p).run (Pass.fixedPoint cap q).run := by
  intro a b
  simp only [Pass.run, iterate_eq_iterated (h.steady hq), iterate_eq_iterated hq]
  exact h.iterated (Pass.iterations cap) a b

omit [TestsOperators κ α] in
theorem Pointwise.chain {ps : List (Pass α)} {qs : List (Pass (Operator κ))}
    (h : List.Forall₂ (fun p q => Pointwise p.run q.run) ps qs) (name name' : String) :
    Pointwise (Pass.chain name ps).run (Pass.chain name' qs).run := by
  have hall : Pointwise (Pass.runAll ps) (Pass.runAll qs) := by
    induction h with
    | nil => exact pointwise_ok
    | cons hpq _ ih => exact hpq.bind ih
  exact hall

end Tests

end Container

end SpinBoson
