import SpinBoson.Pass

/-!
Trees of the nodes that walks visit, and the orders of visits: every node after those below it,
before them or between its two operands, and from depth to depth. All orders are permutations of one
another, and a queue leads from depth to depth.
-/
namespace SpinBoson

/-- What a rule can be called at. -/
inductive Node (κ : Type) where
  | coeff (e : Coeff κ)
  | operator (a : Operator κ)
  | gate (g : Gate κ)
  | statement (s : Statement κ)
  | circuit (c : Circuit κ)
  | json (j : Json)

/-- The nodes of a value, each above those that are walked from it. -/
inductive NodeTree (κ : Type) where
  /-- A node with a left and a right operand. -/
  | binary (node : Node κ) (left right : NodeTree κ)
  /-- Any other node; a list or map takes the place of one without being one. -/
  | other (node? : Option (Node κ)) (children : List (NodeTree κ))

variable {κ : Type}

namespace NodeTree

def node? : NodeTree κ → Option (Node κ)
  | binary node _ _ => some node
  | other node? _ => node?

def children : NodeTree κ → List (NodeTree κ)
  | binary _ l r => [l, r]
  | other _ ts => ts

/-! Orders of visits -/

mutual

/-- Every node after those below it. -/
def postorder : NodeTree κ → List (Node κ)
  | binary node l r => l.postorder ++ r.postorder ++ [node]
  | other node? ts => postorderAll ts ++ node?.toList

def postorderAll : List (NodeTree κ) → List (Node κ)
  | [] => []
  | t :: ts => t.postorder ++ postorderAll ts

end

mutual

/-- Every node before those below it, except that one with two operands waits for its turn. -/
def inTurn (turn : Turn) : NodeTree κ → List (Node κ)
  | binary node l r =>
    match turn with
    | .first => node :: (l.inTurn turn ++ r.inTurn turn)
    | .afterLeft => l.inTurn turn ++ node :: r.inTurn turn
    | .afterRight => r.inTurn turn ++ node :: l.inTurn turn
  | other node? ts => node?.toList ++ inTurnAll turn ts

def inTurnAll (turn : Turn) : List (NodeTree κ) → List (Node κ)
  | [] => []
  | t :: ts => t.inTurn turn ++ inTurnAll turn ts

end

/-- Every node before those below it. -/
abbrev preorder (t : NodeTree κ) : List (Node κ) :=
  t.inTurn .first

/-- The nodes at a depth, left to right; a list or map is a depth of its own. -/
def level : Nat → NodeTree κ → List (Node κ)
  | 0, t => t.node?.toList
  | d + 1, t => t.children.flatMap (level d)

mutual

/-- The number of depths. -/
def height : NodeTree κ → Nat
  | binary _ l r => max l.height r.height + 1
  | other _ ts => heightAll ts + 1

def heightAll : List (NodeTree κ) → Nat
  | [] => 0
  | t :: ts => max t.height (heightAll ts)

end

mutual

/-- The number of nodes, lists and maps included. -/
def size : NodeTree κ → Nat
  | binary _ l r => l.size + r.size + 1
  | other _ ts => sizeAll ts + 1

def sizeAll : List (NodeTree κ) → Nat
  | [] => 0
  | t :: ts => t.size + sizeAll ts

end

theorem sizeAll_append (ts us : List (NodeTree κ)) :
    sizeAll (ts ++ us) = sizeAll ts + sizeAll us := by
  induction ts with
  | nil => simp [sizeAll]
  | cons t ts ih => simp only [List.cons_append, sizeAll, ih, Nat.add_assoc]

theorem size_eq (t : NodeTree κ) : t.size = sizeAll t.children + 1 := by
  cases t <;> simp [size, children, sizeAll]

/-- Visits the trees of a queue; what is below a node is put at the end. -/
def breadthFirst : List (NodeTree κ) → List (Node κ)
  | [] => []
  | t :: queue => t.node?.toList ++ breadthFirst (queue ++ t.children)
termination_by queue => sizeAll queue
decreasing_by
  rw [sizeAll_append, sizeAll, size_eq t]
  omega

/-- The order in which a walk visits the nodes. -/
def visits : Strategy → NodeTree κ → List (Node κ)
  | .post, t => t.postorder
  | .pre, t => t.preorder
  | .inOrder false, t => t.inTurn .afterLeft
  | .inOrder true, t => t.inTurn .afterRight
  | .level, t => breadthFirst [t]

@[simp]
theorem postorderAll_eq (ts : List (NodeTree κ)) : postorderAll ts = ts.flatMap postorder := by
  induction ts with
  | nil => rfl
  | cons t ts ih => rw [postorderAll, ih, List.flatMap_cons]

@[simp]
theorem inTurnAll_eq (turn : Turn) (ts : List (NodeTree κ)) :
    inTurnAll turn ts = ts.flatMap (inTurn turn) := by
  induction ts with
  | nil => rfl
  | cons t ts ih => rw [inTurnAll, ih, List.flatMap_cons]

theorem preorder_eq (t : NodeTree κ) :
    t.preorder = t.node?.toList ++ t.children.flatMap preorder := by
  cases t <;> simp [preorder, inTurn, node?, children]

/-! Every order visits the same nodes -/

mutual

theorem inTurn_perm (turn : Turn) : ∀ t : NodeTree κ, (t.inTurn turn).Perm t.preorder
  | binary node l r => by
    have hl := inTurn_perm turn l
    have hr := inTurn_perm turn r
    cases turn with
    | first => exact .refl _
    | afterLeft => exact List.perm_middle.trans ((hl.append hr).cons node)
    | afterRight =>
      exact List.perm_middle.trans (((hr.append hl).trans List.perm_append_comm).cons node)
  | other node? ts => by
    simpa [preorder, inTurn] using (inTurnAll_perm turn ts).append_left node?.toList

theorem inTurnAll_perm (turn : Turn) : ∀ ts : List (NodeTree κ),
    (ts.flatMap (inTurn turn)).Perm (ts.flatMap (inTurn .first))
  | [] => .refl _
  | t :: ts => by
    rw [List.flatMap_cons, List.flatMap_cons]
    exact (inTurn_perm turn t).append (inTurnAll_perm turn ts)

end

mutual

theorem postorder_perm : ∀ t : NodeTree κ, t.postorder.Perm t.preorder
  | binary node l r =>
    (List.perm_append_singleton node _).trans
      (((postorder_perm l).append (postorder_perm r)).cons node)
  | other node? ts => by
    simpa [preorder, inTurn, postorder] using
      List.perm_append_comm.trans ((postorderAll_perm ts).append_left node?.toList)

theorem postorderAll_perm : ∀ ts : List (NodeTree κ),
    (ts.flatMap postorder).Perm (ts.flatMap (inTurn .first))
  | [] => .refl _
  | t :: ts => by
    rw [List.flatMap_cons, List.flatMap_cons]
    exact (postorder_perm t).append (postorderAll_perm ts)

end

theorem breadthFirst_perm (queue : List (NodeTree κ)) :
    (breadthFirst queue).Perm (queue.flatMap preorder) := by
  fun_induction breadthFirst queue with
  | case1 => exact .refl _
  | case2 t queue ih =>
    rw [List.flatMap_append] at ih
    rw [List.flatMap_cons, preorder_eq t, List.append_assoc]
    exact (ih.trans List.perm_append_comm).append_left _

theorem visits_perm (s : Strategy) (t : NodeTree κ) : (t.visits s).Perm t.preorder := by
  cases s with
  | post => exact postorder_perm t
  | pre => exact .refl _
  | inOrder reverse => cases reverse <;> exact inTurn_perm _ t
  | level => simpa [visits] using breadthFirst_perm [t]

/-! A queue visits one depth after the other -/

/-- The trees at the front of a queue are visited before all that is below them. -/
theorem breadthFirst_append (ts us : List (NodeTree κ)) :
    breadthFirst (ts ++ us) =
      ts.flatMap (level 0) ++ breadthFirst (us ++ ts.flatMap children) := by
  induction ts generalizing us with
  | nil => simp
  | cons t ts ih =>
    rw [List.cons_append, breadthFirst, List.append_assoc, ih, List.append_assoc,
      ← List.flatMap_cons]
    exact (List.append_assoc ..).symm

theorem height_eq (t : NodeTree κ) : t.height = heightAll t.children + 1 := by
  cases t <;> simp [height, children, heightAll]

theorem heightAll_le {ts : List (NodeTree κ)} {n : Nat} :
    heightAll ts ≤ n ↔ ∀ t ∈ ts, t.height ≤ n := by
  induction ts with
  | nil => simp [heightAll]
  | cons t ts ih => rw [heightAll, Nat.max_le, ih, List.forall_mem_cons]

theorem breadthFirst_eq {n : Nat} {queue : List (NodeTree κ)} (hn : ∀ t ∈ queue, t.height ≤ n) :
    breadthFirst queue = (List.range n).flatMap fun d => queue.flatMap (level d) := by
  induction n generalizing queue with
  | zero =>
    cases queue with
    | nil => simp [breadthFirst]
    | cons t _ =>
      have := hn t List.mem_cons_self
      rw [height_eq] at this
      omega
  | succ n ih =>
    have hchildren : ∀ u ∈ queue.flatMap children, u.height ≤ n := by
      intro u hu
      obtain ⟨t, ht, hu⟩ := List.mem_flatMap.mp hu
      have hheight := hn t ht
      rw [height_eq] at hheight
      exact heightAll_le.mp (Nat.le_of_succ_le_succ hheight) u hu
    have hqueue := breadthFirst_append queue []
    rw [List.append_nil, List.nil_append, ih hchildren] at hqueue
    rw [hqueue, List.range_succ_eq_map, List.flatMap_cons, List.flatMap_map]
    simp only [List.flatMap_assoc]
    rfl

/-- The visits by level are those at depth zero, then those at depth one, and so on. -/
theorem visits_level (t : NodeTree κ) :
    t.visits .level = (List.range t.height).flatMap fun d => t.level d := by
  rw [visits, breadthFirst_eq (List.forall_mem_singleton.mpr (Nat.le_refl t.height))]
  simp

end NodeTree

end SpinBoson
