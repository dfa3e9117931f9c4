/-! Chains of a binary operation, associated to the left. -/
namespace SpinBoson

variable {α : Type}

/-- `((a ∘ b) ∘ c) ∘ …`, when there is at least one operand. -/
def leftNested? (op : α → α → α) : List α → Option α
  | [] => none
  | a :: rest => some (rest.foldl op a)

@[simp]
theorem leftNested?_nil (op : α → α → α) : leftNested? op [] = none := rfl

@[simp]
theorem leftNested?_singleton (op : α → α → α) (a : α) : leftNested? op [a] = some a := rfl

theorem leftNested?_append_singleton (op : α → α → α) (xs : List α) (b : α) :
    leftNested? op (xs ++ [b]) = some ((leftNested? op xs).elim b (op · b)) := by
  cases xs <;> simp [leftNested?]

/-- A chain has its last operand on the right of the chain of the others, if there are any. -/
theorem leftNested?_append_eq_some {op : α → α → α} {xs : List α} {b a : α} :
    leftNested? op (xs ++ [b]) = some a ↔
      xs = [] ∧ a = b ∨ ∃ x, leftNested? op xs = some x ∧ a = op x b := by
  cases xs <;> simp [leftNested?, eq_comm]

theorem leftNested?_eq_none_iff (op : α → α → α) (xs : List α) :
    leftNested? op xs = none ↔ xs = [] := by
  cases xs <;> simp [leftNested?]

/-- Induction over chains: one operand, or one more to the right of a chain. -/
@[elab_as_elim]
theorem leftNested?_induction {op : α → α → α}
    {motive : (xs : List α) → (a : α) → leftNested? op xs = some a → Prop}
    (single : ∀ a, motive [a] a rfl)
    (append : ∀ xs x b (h : leftNested? op xs = some x), motive xs x h →
      motive (xs ++ [b]) (op x b) (leftNested?_append_eq_some.mpr (.inr ⟨x, h, rfl⟩)))
    {xs : List α} {a : α} (h : leftNested? op xs = some a) : motive xs a h := by
  induction hlen : xs.length generalizing xs a with
  | zero =>
    obtain rfl := List.eq_nil_of_length_eq_zero hlen
    cases h
  | succ n ih =>
    obtain ⟨init, b, hxs⟩ := (List.eq_nil_or_concat xs).resolve_left (by rintro rfl; cases hlen)
    rw [List.concat_eq_append] at hxs
    subst hxs
    rw [List.length_append] at hlen
    rcases leftNested?_append_eq_some.mp h with ⟨rfl, rfl⟩ | ⟨x, hx, rfl⟩
    · exact single _
    · exact append init x b hx (ih hx (Nat.succ.inj hlen))

end SpinBoson
