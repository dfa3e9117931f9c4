import SpinBoson.Proofs.Rewriting

/-!
Values that hold operators: lists, named values, gates, statements and circuits. A rule that acts on
operators and coefficients alone walks the operators of such a value one after the other and puts
what it makes of them in their places.
-/
namespace SpinBoson

variable {κ α β γ : Type} {m : Type → Type} [Monad m]

/-- Whether a rule leaves gates, statements and circuits alone. -/
structure Rule.LeavesContainers (r : Rule κ m) : Prop where
  gate : r.gate = pure
  statement : r.statement = pure
  circuit : r.circuit = pure

/-- What follows the visits of a list may rely on there being a result for each. -/
theorem mapM_bind_congr [LawfulMonad m] {f : α → m β} {k k' : List β → m γ} (as : List α)
    (h : ∀ bs, bs.length = as.length → k bs = k' bs) : as.mapM f >>= k = as.mapM f >>= k' := by
  induction as generalizing k k' with
  | nil => simpa using h [] rfl
  | cons a as ih =>
    simp only [List.mapM_cons, bind_assoc, pure_bind]
    refine bind_congr fun b => ih fun bs hbs => h _ ?_
    rw [List.length_cons, List.length_cons, hbs]

/-- Values that are walked by walking the operators in them, in order. -/
class Container (κ α : Type) [Walkable κ α] where
  operators : α → List (Operator κ)
  /-- The value with other operators in the places of its own. -/
  replace : α → List (Operator κ) → α
  /-- How many levels there are above the operators. -/
  levels : Nat
  replace_operators : ∀ a, replace a (operators a) = a
  operators_replace : ∀ a xs, xs.length = (operators a).length → operators (replace a xs) = xs
  replace_replace : ∀ a xs ys, xs.length = (operators a).length →
    ys.length = (operators a).length → replace (replace a xs) ys = replace a ys
  height_le : ∀ a, ∀ x ∈ operators a, x.height + levels ≤ Walkable.height κ a
  up_eq : ∀ {m : Type → Type} [Monad m] [LawfulMonad m] {r : Rule κ m}, r.LeavesContainers →
    ∀ a, Walkable.up r a = replace a <$> (operators a).mapM (Operator.up r)
  down_eq : ∀ {m : Type → Type} [Monad m] [LawfulMonad m] {r : Rule κ m}, r.LeavesContainers →
    ∀ (turn : Turn) (n : Nat) (a : α), Walkable.down r turn (n + levels) a =
      replace a <$> (operators a).mapM (Operator.down r turn n)

namespace Container

/-- An operator holds itself. -/
instance : Container κ (Operator κ) where
  operators a := [a]
  replace a xs := xs.headD a
  levels := 0
  replace_operators _ := rfl
  operators_replace a xs h := by
    obtain ⟨x, rfl⟩ := List.length_eq_one_iff.mp h
    rfl
  replace_replace a xs ys _ h := by
    obtain ⟨y, rfl⟩ := List.length_eq_one_iff.mp h
    rfl
  height_le a := List.forall_mem_singleton.mpr (Nat.le_refl _)
  up_eq _ a := by simp [Walkable.up]
  down_eq _ turn n a := by simp [Walkable.down]

section Lists

variable [Walkable κ α] [Container κ α]

/-- Each value of a list with the next operators in the places of its own. -/
def replaceAll : List α → List (Operator κ) → List α
  | [], _ => []
  | a :: as, xs =>
    replace a (xs.take (operators (κ := κ) a).length) ::
      replaceAll as (xs.drop (operators (κ := κ) a).length)

theorem replaceAll_append (a : α) (as : List α) {xs ys : List (Operator κ)}
    (h : xs.length = (operators (κ := κ) a).length) :
    replaceAll (a :: as) (xs ++ ys) = replace a xs :: replaceAll as ys := by
  rw [replaceAll, ← h, List.take_left, List.drop_left]

/-- Visiting the values of a list one after the other is visiting all their operators. -/
theorem mapM_replace [LawfulMonad m] {f : α → m α} {g : Operator κ → m (Operator κ)}
    (hf : ∀ a, f a = replace a <$> (operators (κ := κ) a).mapM g) (as : List α) :
    as.mapM f = replaceAll as <$> (as.flatMap (operators (κ := κ))).mapM g := by
  induction as with
  | nil => simp [replaceAll]
  | cons a as ih =>
    rw [List.mapM_cons, List.flatMap_cons, List.mapM_append, hf, ih]
    simp only [map_eq_pure_bind, bind_assoc, pure_bind]
    exact mapM_bind_congr _ fun xs hxs => bind_congr fun ys => by rw [replaceAll_append a as hxs]

theorem height_le_tallest (height : α → Nat) {as : List α} {a : α} (ha : a ∈ as) :
    height a ≤ tallest height as := by
  have mono (bs : List α) (n : Nat) : n ≤ bs.foldl (fun n b => max n (height b)) n := by
    induction bs generalizing n with
    | nil => exact Nat.le_refl _
    | cons b bs ih => exact Nat.le_trans (Nat.le_max_left _ _) (ih _)
  unfold tallest
  generalize 0 = n
  induction as generalizing n with
  | nil => cases ha
  | cons b bs ih =>
    rcases List.mem_cons.mp ha with rfl | ha
    · exact Nat.le_trans (Nat.le_max_right _ _) (mono bs _)
    · exact ih ha _

/-- As many operators as a list holds are those for its head and those for the rest. -/
theorem length_split {a : α} {as : List α} {xs : List (Operator κ)}
    (h : xs.length = ((a :: as).flatMap (operators (κ := κ))).length) :
    (xs.take (operators (κ := κ) a).length).length = (operators (κ := κ) a).length ∧
      (xs.drop (operators (κ := κ) a).length).length =
        (as.flatMap (operators (κ := κ))).length := by
  rw [List.flatMap_cons, List.length_append] at h
  rw [List.length_take, List.length_drop]
  omega

instance : Container κ (List α) where
  operators as := as.flatMap operators
  replace := replaceAll
  levels := levels κ α + 1
  replace_operators as := by
    induction as with
    | nil => rfl
    | cons a as ih => rw [List.flatMap_cons, replaceAll_append a as rfl, replace_operators, ih]
  operators_replace as := by
    induction as with
    | nil =>
      intro xs h
      exact (List.length_eq_zero_iff.mp h).symm
    | cons a as ih =>
      intro xs h
      obtain ⟨hhead, hrest⟩ := length_split h
      rw [replaceAll, List.flatMap_cons, operators_replace a _ hhead, ih _ hrest,
        List.take_append_drop]
  replace_replace as := by
    induction as with
    | nil => intros; rfl
    | cons a as ih =>
      intro xs ys hxs hys
      obtain ⟨hhead, hrest⟩ := length_split hxs
      obtain ⟨hhead', hrest'⟩ := length_split hys
      rw [replaceAll, replaceAll, replaceAll, operators_replace a _ hhead, hhead,
        replace_replace a _ _ hhead hhead', ih _ _ hrest hrest']
  height_le as x hx := by
    obtain ⟨a, ha, hx⟩ := List.mem_flatMap.mp hx
    have htallest := height_le_tallest (Walkable.height κ) ha
    exact Nat.succ_le_succ (Nat.le_trans (height_le a x hx) htallest)
  up_eq hr := mapM_replace (up_eq hr)
  down_eq hr turn n := mapM_replace (down_eq hr turn n)

instance : Container κ (String × α) where
  operators a := operators a.2
  replace a xs := (a.1, replace a.2 xs)
  levels := levels κ α
  replace_operators a := by rw [replace_operators]
  operators_replace a := operators_replace a.2
  replace_replace a xs ys hxs hys := by rw [replace_replace a.2 xs ys hxs hys]
  height_le a := height_le a.2
  up_eq hr a := by
    simp only [Walkable.up, up_eq hr, map_eq_pure_bind, bind_assoc, pure_bind]
  down_eq hr turn n a := by
    simp only [Walkable.down, down_eq hr, map_eq_pure_bind, bind_assoc, pure_bind]

end Lists

instance : Container κ (Gate κ) where
  operators g := [g.hamiltonian]
  replace g xs := { g with hamiltonian := xs.headD g.hamiltonian }
  levels := 1
  replace_operators _ := rfl
  operators_replace g xs h := by
    obtain ⟨x, rfl⟩ := List.length_eq_one_iff.mp h
    rfl
  replace_replace g xs ys _ h := by
    obtain ⟨y, rfl⟩ := List.length_eq_one_iff.mp h
    rfl
  height_le g := List.forall_mem_singleton.mpr (Nat.le_refl _)
  up_eq hr g := by simp [Walkable.up, Gate.mapHamiltonian, hr.gate]
  down_eq hr turn n g := by simp [Walkable.down, Gate.mapHamiltonian, hr.gate]

instance : Container κ (Statement κ) where
  operators
    | .evolve gate _ => operators gate
    | _ => []
  replace
    | .evolve gate duration, xs => .evolve (replace gate xs) duration
    | s, _ => s
  levels := 2
  replace_operators s := by cases s <;> rfl
  operators_replace s xs h := by
    cases s with
    | evolve gate _ => exact operators_replace gate xs h
    | prepare | measure => exact (List.length_eq_zero_iff.mp h).symm
  replace_replace s xs ys hxs hys := by
    cases s with
    | evolve gate duration =>
      exact congrArg (Statement.evolve · duration) (replace_replace gate xs ys hxs hys)
    | prepare | measure => rfl
  height_le s := by
    cases s with
    | evolve gate _ => exact fun x hx => Nat.succ_le_succ (height_le gate x hx)
    | prepare | measure => exact nofun
  up_eq hr s := by
    cases s with
    | evolve gate _ =>
      simp [Walkable.up, Statement.mapGate, Gate.mapHamiltonian, operators, replace, hr.gate,
        hr.statement]
    | prepare | measure => simp [Walkable.up, Statement.mapGate, hr.statement]
  down_eq hr turn n s := by
    cases s with
    | evolve gate _ =>
      simp [Walkable.down, Statement.mapGate, Gate.mapHamiltonian, operators, replace, hr.gate,
        hr.statement]
    | prepare | measure => simp [Walkable.down, Statement.mapGate, hr.statement]

instance : Container κ (Circuit κ) where
  operators c := operators c.statements
  replace c xs := { c with statements := replace c.statements xs }
  levels := levels κ (List (Statement κ)) + 1
  replace_operators c := by rw [replace_operators]
  operators_replace c := operators_replace c.statements
  replace_replace c xs ys hxs hys := by rw [replace_replace c.statements xs ys hxs hys]
  height_le c x hx := Nat.succ_le_succ (height_le c.statements x hx)
  up_eq hr c := by
    have hstatements := up_eq hr c.statements
    simp only [Walkable.up] at hstatements ⊢
    simp [Circuit.mapStatements, hr.circuit, hstatements]
  down_eq hr turn n c := by
    have hstatements := down_eq hr turn n c.statements
    simp only [Walkable.down] at hstatements ⊢
    simp [Circuit.mapStatements, hr.circuit, hstatements]

/-! What stays around the operators -/

section Outlines

variable [Walkable κ α] [Container κ α]

/-- Whether values differ at most in their operators. -/
def SameOutline (a b : α) : Prop :=
  ∃ xs : List (Operator κ), xs.length = (operators (κ := κ) a).length ∧ b = replace a xs

theorem sameOutline_refl (a : α) : SameOutline (κ := κ) a a :=
  ⟨operators a, rfl, (replace_operators a).symm⟩

theorem sameOutline_trans {a b c : α} (hab : SameOutline (κ := κ) a b)
    (hbc : SameOutline (κ := κ) b c) : SameOutline (κ := κ) a c := by
  obtain ⟨xs, hxs, rfl⟩ := hab
  obtain ⟨ys, hys, rfl⟩ := hbc
  rw [operators_replace a xs hxs, hxs] at hys
  exact ⟨ys, hys, replace_replace a xs ys hxs hys⟩

/-- Visits of the operators keep what is around them. -/
theorem sameOutline_of_replace_mapM {f : Operator κ → Except Error (Operator κ)} {a b : α}
    (h : replace a <$> (operators (κ := κ) a).mapM f = .ok b) : SameOutline (κ := κ) a b := by
  rw [map_eq_pure_bind] at h
  obtain ⟨xs, hxs, hb⟩ := bind_eq_ok.mp h
  exact ⟨xs, (mapM_eq_ok.mp hxs).length_eq.symm, (Except.ok.inj hb).symm⟩

end Outlines

theorem names_of_sameOutline [Walkable κ α] [Container κ α] {as bs : List (String × α)}
    (h : SameOutline (κ := κ) as bs) : bs.map Prod.fst = as.map Prod.fst := by
  obtain ⟨xs, -, rfl⟩ := h
  induction as generalizing xs with
  | nil => rfl
  | cons a as ih => exact congrArg (a.1 :: ·) (ih _)

/-- The operators of a circuit are the Hamiltonians of its gates, in order. -/
theorem operators_circuit (c : Circuit κ) : operators c = c.gates.map Gate.hamiltonian := by
  obtain ⟨name, statements, qubits?, modes?⟩ := c
  change statements.flatMap operators = (statements.filterMap Statement.gate?).map _
  induction statements with
  | nil => rfl
  | cons s statements ih =>
    cases s with
    | prepare | measure => exact ih
    | evolve gate duration => exact congrArg (gate.hamiltonian :: ·) ih

theorem operators_named (as : Named (Operator κ)) : operators as = as.map Prod.snd := by
  induction as with
  | nil => rfl
  | cons a as ih => exact congrArg (a.2 :: ·) ih

theorem gates_of_sameOutline {c d : Circuit κ} (h : SameOutline (κ := κ) c d) :
    d.gates.map Gate.name = c.gates.map Gate.name := by
  obtain ⟨xs, -, rfl⟩ := h
  obtain ⟨name, statements, qubits?, modes?⟩ := c
  change ((replaceAll statements xs).filterMap Statement.gate?).map _ =
    (statements.filterMap Statement.gate?).map _
  induction statements generalizing xs with
  | nil => rfl
  | cons s statements ih =>
    cases s with
    | prepare | measure => exact ih _
    | evolve gate duration => exact congrArg (gate.name :: ·) (ih _)

end Container

end SpinBoson
