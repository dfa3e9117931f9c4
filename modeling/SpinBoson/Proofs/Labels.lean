import Mathlib.Algebra.BigOperators.Group.List.Basic
import Mathlib.Data.List.Perm.Lattice

/-!
Lists of numbers under labels. Where no label occurs twice and no number is zero, what stands under
each label determines the members, and an order for them determines the list.
-/
namespace SpinBoson

variable {α β R : Type} [DecidableEq β] [AddCommMonoid R] {label : α → β} {number : α → R}

/-- What the numbers under a label add up to. -/
def sumAt (label : α → β) (number : α → R) (b : β) (as : List α) : R :=
  (as.map fun a => if label a = b then number a else 0).sum

theorem sumAt_cons (b : β) (a : α) (as : List α) :
    sumAt label number b (a :: as) =
      (if label a = b then number a else 0) + sumAt label number b as :=
  List.sum_cons

theorem sumAt_eq_zero {b : β} {as : List α} (h : ∀ a ∈ as, label a ≠ b) :
    sumAt label number b as = 0 := by
  induction as with
  | nil => rfl
  | cons a as ih =>
    rw [List.forall_mem_cons] at h
    rw [sumAt_cons, if_neg h.1, ih h.2, add_zero]

/-- Under a label that occurs once stands one number. -/
theorem sumAt_of_mem {as : List α} (hnodup : (as.map label).Nodup) {a : α} (ha : a ∈ as) :
    sumAt label number (label a) as = number a := by
  induction as with
  | nil => cases ha
  | cons c as ih =>
    rw [List.map_cons, List.nodup_cons] at hnodup
    have hne : ∀ x ∈ as, label x ≠ label c := fun x hx heq =>
      hnodup.1 (heq ▸ List.mem_map_of_mem hx)
    rw [sumAt_cons]
    rcases List.mem_cons.mp ha with rfl | ha
    · rw [if_pos rfl, sumAt_eq_zero hne, add_zero]
    · rw [if_neg fun heq => hne a ha heq.symm, zero_add]
      exact ih hnodup.2 ha

/-- A label under which something stands occurs. -/
theorem exists_of_sumAt_ne_zero {b : β} {as : List α} (h : sumAt label number b as ≠ 0) :
    ∃ a ∈ as, label a = b := by
  by_contra hnone
  exact h (sumAt_eq_zero fun a ha heq => hnone ⟨a, ha, heq⟩)

/-- Lists in order are equal if they have the same members. -/
theorem eq_of_mem_iff {r : α → α → Prop} {as bs : List α} (hnodup : as.Nodup) (hnodup' : bs.Nodup)
    (has : as.Pairwise r) (hbs : bs.Pairwise r)
    (hr : ∀ a b, a ∈ as → b ∈ bs → r a b → r b a → a = b) (h : ∀ a, a ∈ as ↔ a ∈ bs) : as = bs :=
  ((List.perm_ext_iff_of_nodup hnodup hnodup').mpr h).eq_of_pairwise hr has hbs

/--
Lists in order are equal if the same stands under each label, none of it zero, and a label and a
number determine a member.
-/
theorem eq_of_sumAt (label : α → β) (number : α → R) {r : α → α → Prop} {as bs : List α}
    (hnodup : (as.map label).Nodup) (hnodup' : (bs.map label).Nodup) (has : as.Pairwise r)
    (hbs : bs.Pairwise r)
    (hr : ∀ a b, a ∈ as → b ∈ bs → r a b → r b a → a = b)
    (hne : ∀ a ∈ as, number a ≠ 0) (hne' : ∀ b ∈ bs, number b ≠ 0)
    (hinj : ∀ a ∈ as, ∀ b ∈ bs, label a = label b → number a = number b → a = b)
    (h : ∀ c ∈ as ++ bs, sumAt label number (label c) as = sumAt label number (label c) bs) :
    as = bs := by
  refine eq_of_mem_iff (.of_map _ hnodup) (.of_map _ hnodup') has hbs hr fun c =>
    ⟨fun hc => ?_, fun hc => ?_⟩
  · have hsum := h c (List.mem_append_left _ hc)
    rw [sumAt_of_mem hnodup hc] at hsum
    obtain ⟨b, hb, heq⟩ := exists_of_sumAt_ne_zero (hsum ▸ hne c hc)
    rw [← heq, sumAt_of_mem hnodup' hb] at hsum
    exact hinj c hc b hb heq.symm hsum ▸ hb
  · have hsum := h c (List.mem_append_right _ hc)
    rw [sumAt_of_mem hnodup' hc] at hsum
    obtain ⟨a, ha, heq⟩ := exists_of_sumAt_ne_zero (hsum.symm ▸ hne' c hc)
    rw [← heq, sumAt_of_mem hnodup ha] at hsum
    exact hinj a ha c hc heq hsum ▸ ha

end SpinBoson
