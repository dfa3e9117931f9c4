import SpinBoson.Proofs.Operator.Checks
import SpinBoson.Proofs.Walk.NodeTree

/-!
What walks visit. Every value that can be walked is a tree of nodes, and a walk with a rule that
rewrites nothing calls the rule once at each of them, in the order of its strategy.
-/
namespace SpinBoson

variable {κ α : Type} {m : Type → Type}

namespace Rule

section

variable [Monad m] (r : Rule κ m)

/-- Calls the rule at a node, and forgets what it puts there. -/
def visit : Node κ → m Unit
  | .coeff e => (fun _ => ()) <$> r.coeff e
  | .operator a => (fun _ => ()) <$> r.operator a
  | .gate g => (fun _ => ()) <$> r.gate g
  | .statement s => (fun _ => ()) <$> r.statement s
  | .circuit c => (fun _ => ()) <$> r.circuit c
  | .json j => (fun _ => ()) <$> r.json j

/-- Whether the rule gives every node back as it is, and goes on below all operators. -/
structure NeverRewrites : Prop where
  coeff : ∀ e, r.coeff e = (fun _ => e) <$> r.coeff e
  operator : ∀ a, r.operator a = (fun _ => a) <$> r.operator a
  gate : ∀ g, r.gate g = (fun _ => g) <$> r.gate g
  statement : ∀ s, r.statement s = (fun _ => s) <$> r.statement s
  circuit : ∀ c, r.circuit c = (fun _ => c) <$> r.circuit c
  json : ∀ j, r.json j = (fun _ => j) <$> r.json j
  descends : ∀ a, r.descends a = true

/-- Calls the rule at some nodes in order, and returns a value. -/
def visitAll (nodes : List (Node κ)) (a : α) : m α := do
  nodes.forM r.visit
  return a

end

variable [Monad m] [LawfulMonad m] {r : Rule κ m}

/-- Visits one after the other, with the nodes of each and what it leads to. -/
theorem visitAll_bind {β : Type} (nodes : List (Node κ)) (a : α) (f : α → m β) :
    r.visitAll nodes a >>= f = nodes.forM r.visit >>= fun _ => f a := by
  simp [visitAll]

theorem visitAll_append (nodes nodes' : List (Node κ)) (a : α) :
    r.visitAll (nodes ++ nodes') a = nodes.forM r.visit >>= fun _ => r.visitAll nodes' a := by
  simp [visitAll]

theorem visitAll_cons (node : Node κ) (nodes : List (Node κ)) (a : α) :
    r.visitAll (node :: nodes) a = r.visit node >>= fun _ => r.visitAll nodes a := by
  simp [visitAll]

theorem visitAll_nil (a : α) : r.visitAll [] a = pure a := by
  simp [visitAll]

/-- Visits of the values of a list are visits of all their nodes. -/
theorem mapM_visitAll {f : α → m α} {nodes : α → List (Node κ)} {as : List α}
    (hf : ∀ a ∈ as, f a = r.visitAll (nodes a) a) :
    as.mapM f = r.visitAll (as.flatMap nodes) as := by
  induction as with
  | nil => rw [List.mapM_nil, List.flatMap_nil, visitAll_nil]
  | cons a as ih =>
    rw [List.forall_mem_cons] at hf
    rw [List.mapM_cons, List.flatMap_cons, visitAll_append, hf.1, ih hf.2, visitAll_bind]
    refine bind_congr fun _ => ?_
    rw [visitAll_bind, visitAll]

namespace NeverRewrites

variable (hr : r.NeverRewrites)

include hr

theorem coeff_eq (e : Coeff κ) : r.coeff e = r.visit (.coeff e) >>= fun _ => pure e := by
  rw [hr.coeff]
  simp [visit]

theorem operator_eq (a : Operator κ) :
    r.operator a = r.visit (.operator a) >>= fun _ => pure a := by
  rw [hr.operator]
  simp [visit]

theorem gate_eq (g : Gate κ) : r.gate g = r.visit (.gate g) >>= fun _ => pure g := by
  rw [hr.gate]
  simp [visit]

theorem statement_eq (s : Statement κ) :
    r.statement s = r.visit (.statement s) >>= fun _ => pure s := by
  rw [hr.statement]
  simp [visit]

theorem circuit_eq (c : Circuit κ) : r.circuit c = r.visit (.circuit c) >>= fun _ => pure c := by
  rw [hr.circuit]
  simp [visit]

theorem json_eq (j : Json) : r.json j = r.visit (.json j) >>= fun _ => pure j := by
  rw [hr.json]
  simp [visit]

end NeverRewrites

end Rule

/-! Values as trees of nodes -/

namespace Coeff

def nodes : Coeff κ → NodeTree κ
  | bin op a b => .binary (.coeff (bin op a b)) a.nodes b.nodes
  | neg e => .other (some (.coeff (neg e))) [e.nodes]
  | app f e => .other (some (.coeff (app f e))) [e.nodes]
  | e => .other (some (.coeff e)) []

theorem height_nodes (e : Coeff κ) : e.nodes.height = e.height := by
  induction e with
  | lit | var | raw => rfl
  | neg e ih | app f e ih => simp [nodes, NodeTree.height, NodeTree.heightAll, height, ih]
  | bin op a b iha ihb => simp [nodes, NodeTree.height, height, iha, ihb]

section

variable [Monad m] [LawfulMonad m] {r : Rule κ m} (hr : r.NeverRewrites)

include hr

theorem up_eq_visitAll (e : Coeff κ) : e.up r = r.visitAll e.nodes.postorder e := by
  induction e with
  | lit | var | raw => simp [up, nodes, NodeTree.postorder, hr.coeff_eq, Rule.visitAll]
  | neg e ih | app f e ih =>
    simp [up, ih, nodes, NodeTree.postorder, hr.coeff_eq, Rule.visitAll]
  | bin op a b iha ihb =>
    simp [up, iha, ihb, nodes, NodeTree.postorder, hr.coeff_eq, Rule.visitAll]

theorem down_eq_visitAll (turn : Turn) {n : Nat} {e : Coeff κ} (hn : e.height ≤ n) :
    e.down r turn n = r.visitAll (e.nodes.inTurn turn) e := by
  induction n generalizing e with
  | zero => cases e <;> simp [height] at hn
  | succ n ih =>
    cases e with
    | lit | var | raw =>
      cases turn <;>
        simp [down, mapOperands, nodes, NodeTree.inTurn, hr.coeff_eq, Rule.visitAll]
    | neg e | app f e =>
      have he := ih (e := e) (by simp only [height] at hn; omega)
      cases turn <;>
        simp [down, mapOperands, he, nodes, NodeTree.inTurn, hr.coeff_eq, Rule.visitAll]
    | bin op a b =>
      have ha := ih (e := a) (by simp only [height] at hn; omega)
      have hb := ih (e := b) (by simp only [height] at hn; omega)
      cases turn <;>
        simp [down, mapOperands, ha, hb, nodes, NodeTree.inTurn, hr.coeff_eq, Rule.visitAll]

theorem atDepth_eq_visitAll (d : Nat) (e : Coeff κ) :
    e.atDepth r d = r.visitAll (e.nodes.level d) e := by
  induction d generalizing e with
  | zero =>
    cases e <;>
      simp [atDepth, nodes, NodeTree.level, NodeTree.node?, hr.coeff_eq, Rule.visitAll]
  | succ d ih =>
    cases e <;>
      simp [atDepth, mapOperands, ih, nodes, NodeTree.level, NodeTree.children, Rule.visitAll]

end

end Coeff

namespace Operator

/-- The coefficient of a scaled operator stands before the operator. -/
def nodes : Operator κ → NodeTree κ
  | bin op a b => .binary (.operator (bin op a b)) a.nodes b.nodes
  | scale c a => .other (some (.operator (scale c a))) [c.nodes, a.nodes]
  | a => .other (some (.operator a)) []

theorem height_nodes (a : Operator κ) : a.nodes.height = a.height := by
  induction a with
  | spin | mode => rfl
  | bin op a b iha ihb => simp [nodes, NodeTree.height, height, iha, ihb]
  | scale c a ih =>
    simp [nodes, NodeTree.height, NodeTree.heightAll, height, c.height_nodes, ih]

section

variable [Monad m] [LawfulMonad m] {r : Rule κ m} (hr : r.NeverRewrites)

include hr

theorem up_eq_visitAll (a : Operator κ) : a.up r = r.visitAll a.nodes.postorder a := by
  induction a with
  | spin | mode => simp [up, nodes, NodeTree.postorder, hr.operator_eq, Rule.visitAll]
  | bin op a b iha ihb =>
    simp [up, iha, ihb, nodes, NodeTree.postorder, hr.operator_eq, Rule.visitAll]
  | scale c a ih =>
    simp [up, Coeff.up_eq_visitAll hr, ih, nodes, NodeTree.postorder, hr.operator_eq,
      Rule.visitAll]

theorem down_eq_visitAll (turn : Turn) {n : Nat} {a : Operator κ} (hn : a.height ≤ n) :
    a.down r turn n = r.visitAll (a.nodes.inTurn turn) a := by
  induction n generalizing a with
  | zero => cases a <;> simp [height] at hn
  | succ n ih =>
    cases a with
    | spin | mode =>
      cases turn <;>
        simp [down, mapOperands, hr.descends, nodes, NodeTree.inTurn, hr.operator_eq,
          Rule.visitAll]
    | bin op a b =>
      have ha := ih (a := a) (by simp only [height] at hn; omega)
      have hb := ih (a := b) (by simp only [height] at hn; omega)
      cases turn <;>
        simp [down, mapOperands, hr.descends, ha, hb, nodes, NodeTree.inTurn, hr.operator_eq,
          Rule.visitAll]
    | scale c a =>
      have hc := Coeff.down_eq_visitAll hr turn (n := n) (e := c)
        (by simp only [height] at hn; omega)
      have ha := ih (a := a) (by simp only [height] at hn; omega)
      cases turn <;>
        simp [down, mapOperands, hr.descends, hc, ha, nodes, NodeTree.inTurn, hr.operator_eq,
          Rule.visitAll]

theorem atDepth_eq_visitAll (d : Nat) (a : Operator κ) :
    a.atDepth r d = r.visitAll (a.nodes.level d) a := by
  induction d generalizing a with
  | zero =>
    cases a <;>
      simp [atDepth, nodes, NodeTree.level, NodeTree.node?, hr.operator_eq, Rule.visitAll]
  | succ d ih =>
    cases a <;>
      simp [atDepth, mapOperands, Coeff.atDepth_eq_visitAll hr, ih, nodes, NodeTree.level,
        NodeTree.children, Rule.visitAll]

end

end Operator

namespace Json

mutual

/-- Items stand in order, and fields in the order of the value. -/
def nodes : Json → NodeTree κ
  | arr items => .other (some (.json (arr items))) (nodesOfItems items)
  | obj fields => .other (some (.json (obj fields))) (nodesOfFields fields)
  | null => .other (some (.json null)) []
  | bool b => .other (some (.json (bool b))) []
  | int n => .other (some (.json (int n))) []
  | float x => .other (some (.json (float x))) []
  | str s => .other (some (.json (str s))) []

def nodesOfItems : List Json → List (NodeTree κ)
  | [] => []
  | j :: rest => j.nodes :: nodesOfItems rest

def nodesOfFields : List (String × Json) → List (NodeTree κ)
  | [] => []
  | (_, j) :: rest => j.nodes :: nodesOfFields rest

end

theorem nodesOfItems_eq (items : List Json) :
    (nodesOfItems items : List (NodeTree κ)) = items.map nodes := by
  induction items with
  | nil => rfl
  | cons j rest ih => rw [nodesOfItems, ih, List.map_cons]

theorem nodesOfFields_eq (fields : List (String × Json)) :
    (nodesOfFields fields : List (NodeTree κ)) = fields.map fun field => field.2.nodes := by
  induction fields with
  | nil => rfl
  | cons field rest ih => rw [nodesOfFields, ih, List.map_cons]

mutual

theorem height_nodes : ∀ j : Json, (j.nodes : NodeTree κ).height = j.height
  | arr items => by rw [nodes, NodeTree.height, heightAll_nodesOfItems, height]
  | obj fields => by rw [nodes, NodeTree.height, heightAll_nodesOfFields, height]
  | null | bool _ | int _ | float _ | str _ => rfl

theorem heightAll_nodesOfItems : ∀ items : List Json,
    NodeTree.heightAll (nodesOfItems items : List (NodeTree κ)) = heightItems items
  | [] => rfl
  | j :: rest => by
    rw [nodesOfItems, NodeTree.heightAll, height_nodes j, heightAll_nodesOfItems rest, heightItems]

theorem heightAll_nodesOfFields : ∀ fields : List (String × Json),
    NodeTree.heightAll (nodesOfFields fields : List (NodeTree κ)) = heightFields fields
  | [] => rfl
  | (_, j) :: rest => by
    rw [nodesOfFields, NodeTree.heightAll, height_nodes j, heightAll_nodesOfFields rest,
      heightFields]

end

variable [Monad m] [LawfulMonad m] {r : Rule κ m}

mutual

theorem up_eq_visitAll (hr : r.NeverRewrites) :
    ∀ j : Json, j.up r = r.visitAll (nodes j).postorder j
  | arr items => by
    simp [up, upItems_eq_visitAll hr items, nodes, NodeTree.postorder, hr.json_eq, Rule.visitAll]
  | obj fields => by
    simp [up, upFields_eq_visitAll hr fields, nodes, NodeTree.postorder, hr.json_eq,
      Rule.visitAll]
  | null | bool _ | int _ | float _ | str _ => by
    simp [up, nodes, NodeTree.postorder, hr.json_eq, Rule.visitAll]

theorem upItems_eq_visitAll (hr : r.NeverRewrites) : ∀ items : List Json,
    upItems r items = r.visitAll ((nodesOfItems items).flatMap NodeTree.postorder) items
  | [] => by simp [upItems, nodesOfItems, Rule.visitAll]
  | j :: rest => by
    simp [upItems, up_eq_visitAll hr j, upItems_eq_visitAll hr rest, nodesOfItems, Rule.visitAll]

theorem upFields_eq_visitAll (hr : r.NeverRewrites) : ∀ fields : List (String × Json),
    upFields r fields = r.visitAll ((nodesOfFields fields).flatMap NodeTree.postorder) fields
  | [] => by simp [upFields, nodesOfFields, Rule.visitAll]
  | (_, j) :: rest => by
    simp [upFields, up_eq_visitAll hr j, upFields_eq_visitAll hr rest, nodesOfFields,
      Rule.visitAll]

end

/-- Visits of the values inside a container are visits of all nodes below it. -/
theorem mapInner_visitAll {f : Json → m Json} {visits : NodeTree κ → List (Node κ)} {j : Json}
    (hf : ∀ i : Json, i.nodes ∈ (j.nodes : NodeTree κ).children →
      f i = r.visitAll (visits i.nodes) i) :
    j.mapInner f = r.visitAll ((nodes j).children.flatMap visits) j := by
  cases j with
  | arr items =>
    rw [nodes, NodeTree.children, nodesOfItems_eq] at hf ⊢
    have hitems := Rule.mapM_visitAll fun i hi => hf i (List.mem_map_of_mem hi)
    rw [mapInner, hitems, Rule.visitAll_bind, List.flatMap_map, Rule.visitAll]
  | obj fields =>
    rw [nodes, NodeTree.children, nodesOfFields_eq] at hf ⊢
    have hfields : fields.mapM (fun field : String × Json => return (field.1, ← f field.2)) =
        r.visitAll (fields.flatMap fun field => visits field.2.nodes) fields :=
      Rule.mapM_visitAll fun field hfield => by
        rw [hf field.2 (List.mem_map_of_mem hfield), Rule.visitAll_bind, Rule.visitAll]
    rw [mapInner, hfields, Rule.visitAll_bind, List.flatMap_map, Rule.visitAll]
  | null | bool | int | float | str => exact (Rule.visitAll_nil _).symm

theorem inTurn_nodes (turn : Turn) (j : Json) : (j.nodes : NodeTree κ).inTurn turn =
    .json j :: (j.nodes : NodeTree κ).children.flatMap (NodeTree.inTurn turn) := by
  cases j <;> simp [nodes, NodeTree.inTurn, NodeTree.children]

theorem down_eq_visitAll (hr : r.NeverRewrites) (turn : Turn) {n : Nat} {j : Json}
    (hn : (j.nodes : NodeTree κ).height ≤ n) :
    j.down r n = r.visitAll ((nodes j).inTurn turn) j := by
  induction n generalizing j with
  | zero =>
    rw [NodeTree.height_eq] at hn
    omega
  | succ n ih =>
    rw [NodeTree.height_eq] at hn
    have hinner : j.mapInner (down r n) =
        r.visitAll ((nodes j).children.flatMap (NodeTree.inTurn turn)) j :=
      mapInner_visitAll fun i hi => ih (NodeTree.heightAll_le.mp (Nat.le_of_succ_le_succ hn) _ hi)
    rw [down, hr.json_eq, bind_assoc, inTurn_nodes, Rule.visitAll_cons]
    simp only [pure_bind, hinner]

theorem atDepth_eq_visitAll (hr : r.NeverRewrites) (d : Nat) (j : Json) :
    j.atDepth r d = r.visitAll ((nodes j).level d) j := by
  induction d generalizing j with
  | zero =>
    have hnode : (j.nodes : NodeTree κ).level 0 = [.json j] := by cases j <;> rfl
    rw [atDepth, hr.json_eq, hnode, Rule.visitAll_cons, Rule.visitAll_nil]
  | succ d ih => exact mapInner_visitAll fun i _ => ih i

end Json

/-! All values -/

/-- Values that are walked as the trees of their nodes. -/
class Outlined (κ α : Type) [Walkable κ α] where
  nodes : α → NodeTree κ
  height_nodes : ∀ a, (nodes a).height = Walkable.height κ a
  up_eq : ∀ {m : Type → Type} [Monad m] [LawfulMonad m] {r : Rule κ m}, r.NeverRewrites →
    ∀ a, Walkable.up r a = r.visitAll (nodes a).postorder a
  down_eq : ∀ {m : Type → Type} [Monad m] [LawfulMonad m] {r : Rule κ m}, r.NeverRewrites →
    ∀ (turn : Turn) {n : Nat} {a : α}, Walkable.height κ a ≤ n →
      Walkable.down r turn n a = r.visitAll ((nodes a).inTurn turn) a
  atDepth_eq : ∀ {m : Type → Type} [Monad m] [LawfulMonad m] {r : Rule κ m}, r.NeverRewrites →
    ∀ (d : Nat) (a : α), Walkable.atDepth r d a = r.visitAll ((nodes a).level d) a

namespace Outlined

instance : Outlined κ (Coeff κ) where
  nodes := Coeff.nodes
  height_nodes := Coeff.height_nodes
  up_eq := Coeff.up_eq_visitAll
  down_eq := Coeff.down_eq_visitAll
  atDepth_eq := Coeff.atDepth_eq_visitAll

instance : Outlined κ (Operator κ) where
  nodes := Operator.nodes
  height_nodes := Operator.height_nodes
  up_eq := Operator.up_eq_visitAll
  down_eq := Operator.down_eq_visitAll
  atDepth_eq := Operator.atDepth_eq_visitAll

instance : Outlined κ Json where
  nodes := Json.nodes
  height_nodes := Json.height_nodes
  up_eq := Json.up_eq_visitAll
  down_eq hr turn _ j hn := Json.down_eq_visitAll hr turn (Json.height_nodes (κ := κ) j ▸ hn)
  atDepth_eq := Json.atDepth_eq_visitAll

/-- A name is no node, so a named value is walked as the value. -/
instance [Walkable κ α] [Outlined κ α] : Outlined κ (String × α) where
  nodes a := nodes a.2
  height_nodes a := height_nodes a.2
  up_eq hr a := by simp [Walkable.up, up_eq hr, Rule.visitAll]
  down_eq hr turn _ a hn := by
    simp [Walkable.down, down_eq hr turn (a := a.2) hn, Rule.visitAll]
  atDepth_eq hr d a := by simp [Walkable.atDepth, atDepth_eq hr, Rule.visitAll]

section Lists

variable [Walkable κ α] [Outlined κ α]

theorem heightAll_map_nodes (as : List α) :
    NodeTree.heightAll (as.map (nodes (κ := κ))) = tallest (Walkable.height κ) as := by
  have hfold (n : Nat) : as.foldl (fun n a => max n (Walkable.height κ a)) n =
      max n (NodeTree.heightAll (as.map (nodes (κ := κ)))) := by
    induction as generalizing n with
    | nil => simp [NodeTree.heightAll]
    | cons a as ih =>
      rw [List.foldl_cons, ih, List.map_cons, NodeTree.heightAll, height_nodes, Nat.max_assoc]
  rw [tallest, hfold, Nat.zero_max]

/-- The values of a list stand below it, in order. -/
instance : Outlined κ (List α) where
  nodes as := .other none (as.map nodes)
  height_nodes as := congrArg (· + 1) (heightAll_map_nodes as)
  up_eq hr as := by
    have h := Rule.mapM_visitAll fun a (_ : a ∈ as) => up_eq hr a
    simpa [Walkable.up, NodeTree.postorder, List.flatMap_map] using h
  down_eq hr turn n as hn := by
    cases n with
    | zero => exact absurd hn (Nat.not_succ_le_zero _)
    | succ n =>
      have hle : NodeTree.heightAll (as.map (nodes (κ := κ))) ≤ n := by
        rw [heightAll_map_nodes]
        exact Nat.le_of_succ_le_succ hn
      have h := Rule.mapM_visitAll fun a (ha : a ∈ as) => down_eq hr turn (n := n) (a := a) (by
        rw [← height_nodes]
        exact NodeTree.heightAll_le.mp hle _ (List.mem_map_of_mem ha))
      simpa [Walkable.down, NodeTree.inTurn, List.flatMap_map] using h
  atDepth_eq hr d as := by
    cases d with
    | zero => exact (Rule.visitAll_nil as).symm
    | succ d =>
      have h := Rule.mapM_visitAll fun a (_ : a ∈ as) => atDepth_eq hr d a
      simpa [Walkable.atDepth, NodeTree.level, NodeTree.children, List.flatMap_map] using h

end Lists

/-- The jumps of a gate are no part of its tree. -/
instance : Outlined κ (Gate κ) where
  nodes g := .other (some (.gate g)) [g.hamiltonian.nodes]
  height_nodes g := by
    simp [NodeTree.height, NodeTree.heightAll, Walkable.height, g.hamiltonian.height_nodes]
  up_eq hr g := by
    simp [Walkable.up, Gate.mapHamiltonian, Operator.up_eq_visitAll hr, hr.gate_eq,
      NodeTree.postorder, Rule.visitAll]
  down_eq hr turn n g hn := by
    cases n with
    | zero => exact absurd hn (Nat.not_succ_le_zero _)
    | succ n =>
      have hbelow := Operator.down_eq_visitAll hr turn (Nat.le_of_succ_le_succ hn)
      simp [Walkable.down, Gate.mapHamiltonian, hbelow, hr.gate_eq, NodeTree.inTurn,
        Rule.visitAll]
  atDepth_eq hr d g := by
    cases d with
    | zero =>
      simp [Walkable.atDepth, hr.gate_eq, NodeTree.level, NodeTree.node?, Rule.visitAll]
    | succ d =>
      simp [Walkable.atDepth, Gate.mapHamiltonian, Operator.atDepth_eq_visitAll hr,
        NodeTree.level, NodeTree.children, Rule.visitAll]

/-- Only evolutions have something below them. -/
instance : Outlined κ (Statement κ) where
  nodes
    | .evolve gate duration => .other (some (.statement (.evolve gate duration))) [nodes gate]
    | s => .other (some (.statement s)) []
  height_nodes s := by
    cases s with
    | evolve gate duration =>
      simp [NodeTree.height, NodeTree.heightAll, Walkable.height, height_nodes gate]
    | prepare | measure => rfl
  up_eq {m} _ _ {r} hr s := by
    cases s with
    | evolve gate duration =>
      change (Statement.evolve gate duration).mapGate (Walkable.up r) >>= r.statement = _
      simp [Statement.mapGate, up_eq hr gate, hr.statement_eq, NodeTree.postorder, Rule.visitAll]
    | prepare | measure =>
      simp [Walkable.up, Statement.mapGate, hr.statement_eq, NodeTree.postorder, Rule.visitAll]
  down_eq {m} _ _ {r} hr turn n s hn := by
    cases n with
    | zero => cases s <;> exact absurd hn (Nat.not_succ_le_zero _)
    | succ n =>
      change r.statement s >>= Statement.mapGate (Walkable.down r turn n) = _
      cases s with
      | evolve gate duration =>
        have hbelow := down_eq hr turn (a := gate) (Nat.le_of_succ_le_succ hn)
        simp [Statement.mapGate, hbelow, hr.statement_eq, NodeTree.inTurn, Rule.visitAll]
      | prepare | measure =>
        simp [Statement.mapGate, hr.statement_eq, NodeTree.inTurn, Rule.visitAll]
  atDepth_eq {m} _ _ {r} hr d s := by
    cases d with
    | zero =>
      cases s <;>
        simp [Walkable.atDepth, hr.statement_eq, NodeTree.level, NodeTree.node?, Rule.visitAll]
    | succ d =>
      change s.mapGate (Walkable.atDepth r d) = _
      cases s <;>
        simp [Statement.mapGate, atDepth_eq hr, NodeTree.level, NodeTree.children, Rule.visitAll]

/-- The statements of a circuit are a list, and so a level of their own. -/
instance : Outlined κ (Circuit κ) where
  nodes c := .other (some (.circuit c)) [nodes c.statements]
  height_nodes c := by
    have hstatements := height_nodes (κ := κ) c.statements
    change max (NodeTree.height (nodes c.statements)) 0 + 1 = Walkable.height κ c.statements + 1
    rw [hstatements, Nat.max_zero]
  up_eq {m} _ _ {r} hr c := by
    change c.mapStatements (Walkable.up r) >>= r.circuit = _
    simp [Circuit.mapStatements, up_eq hr c.statements, hr.circuit_eq, NodeTree.postorder,
      Rule.visitAll]
  down_eq {m} _ _ {r} hr turn n c hn := by
    cases n with
    | zero => exact absurd hn (Nat.not_succ_le_zero _)
    | succ n =>
      have hbelow := down_eq hr turn (a := c.statements) (Nat.le_of_succ_le_succ hn)
      change r.circuit c >>= Circuit.mapStatements (Walkable.down r turn n) = _
      simp [Circuit.mapStatements, hbelow, hr.circuit_eq, NodeTree.inTurn, Rule.visitAll]
  atDepth_eq {m} _ _ {r} hr d c := by
    cases d with
    | zero =>
      simp [Walkable.atDepth, hr.circuit_eq, NodeTree.level, NodeTree.node?, Rule.visitAll]
    | succ d =>
      change c.mapStatements (Walkable.atDepth r d) = _
      simp [Circuit.mapStatements, atDepth_eq hr, NodeTree.level, NodeTree.children,
        Rule.visitAll]

end Outlined

namespace Outlined

variable [Walkable κ α] [Outlined κ α]

section

variable [Monad m] [LawfulMonad m] {r : Rule κ m} (hr : r.NeverRewrites)

include hr

/-- From one depth on, the levels are visited one after the other while there is one. -/
theorem walkLevels_eq_visitAll {n depth : Nat} {a : α}
    (hn : Walkable.height κ a ≤ depth + n) : walkLevels r n depth a =
      r.visitAll ((List.range' depth (Walkable.height κ a - depth)).flatMap fun d =>
        (nodes a).level d) a := by
  induction n generalizing depth with
  | zero =>
    rw [Nat.sub_eq_zero_of_le (Nat.add_zero depth ▸ hn)]
    exact (Rule.visitAll_nil a).symm
  | succ n ih =>
    by_cases hdepth : depth < Walkable.height κ a
    · have hrest : Walkable.height κ a - depth = Walkable.height κ a - (depth + 1) + 1 := by omega
      rw [walkLevels, if_pos hdepth, atDepth_eq hr, Rule.visitAll_bind, ih (by omega), hrest,
        List.range'_succ, List.flatMap_cons, Rule.visitAll_append]
    · rw [walkLevels, if_neg hdepth, Nat.sub_eq_zero_of_le (Nat.le_of_not_lt hdepth)]
      exact (Rule.visitAll_nil a).symm

theorem walk_eq_visitAll (s : Strategy) (a : α) :
    walk s r a = r.visitAll ((nodes a).visits s) a := by
  have hdown (turn : Turn) : Walkable.down r turn (Walkable.height κ a + growth) a =
      r.visitAll ((nodes a).inTurn turn) a := down_eq hr turn (Nat.le_add_right _ _)
  cases s with
  | post => exact up_eq hr a
  | pre => exact hdown .first
  | inOrder reverse =>
    cases reverse with
    | false => exact hdown .afterLeft
    | true => exact hdown .afterRight
  | level =>
    rw [NodeTree.visits_level, height_nodes, List.range_eq_range']
    exact walkLevels_eq_visitAll hr (by omega)

end

/--
A walk with a rule that rewrites nothing calls it at the nodes of the value in the order of the
strategy, each node once, and returns the value. A walk by levels visits one depth after the other.
The first failing call ends the walk with its error.
-/
theorem walk_visits {σ : Type} {r : Rule κ (Noting σ)} (hr : r.NeverRewrites) (s : Strategy)
    (a : α) :
    walk s r a = r.visitAll ((nodes a).visits s) a ∧
    ((nodes a : NodeTree κ).visits s).Perm (nodes a).preorder ∧
    ((nodes a : NodeTree κ).visits .level =
      (List.range (nodes a : NodeTree κ).height).flatMap fun d => (nodes a).level d) ∧
    ∀ before node after start noted noted' e, (nodes a).visits s = before ++ node :: after →
      (before.forM r.visit).run start = (.ok (), noted) →
      (r.visit node).run noted = (.error e, noted') →
        (walk s r a).run start = (.error e, noted') := by
  refine ⟨walk_eq_visitAll hr s a, NodeTree.visits_perm s _, NodeTree.visits_level _, ?_⟩
  intro before node after start noted noted' e hvisits hbefore hnode
  rw [walk_eq_visitAll hr, hvisits, Rule.visitAll_append, Noting.run_bind_ok hbefore,
    Rule.visitAll_cons, Noting.run_bind_error hnode]

end Outlined

/-- Notes a node, and fails if there is an error for it. -/
def Rule.note (error? : Node κ → Option Error) (node : Node κ) (a : α) :
    Noting (List (Node κ)) α := do
  modify (· ++ [node])
  match error? node with
  | none => return a
  | some e => throw e

/-- Notes every node that it is called at. -/
def Rule.noting (error? : Node κ → Option Error) : Rule κ (Noting (List (Node κ))) where
  name := "Noting"
  coeff e := note error? (.coeff e) e
  operator a := note error? (.operator a) a
  gate g := note error? (.gate g) g
  statement s := note error? (.statement s) s
  circuit c := note error? (.circuit c) c
  json j := note error? (.json j) j
  descends _ := true

theorem Rule.noting_neverRewrites (error? : Node κ → Option Error) :
    (noting error?).NeverRewrites := by
  have hnote {β : Type} (node : Node κ) (b : β) :
      note error? node b = (fun _ => b) <$> note error? node b := by
    unfold note
    cases error? node <;> simp
  exact ⟨fun _ => hnote _ _, fun _ => hnote _ _, fun _ => hnote _ _, fun _ => hnote _ _,
    fun _ => hnote _ _, fun _ => hnote _ _, fun _ => rfl⟩

/-- The product of a sum and a third operator. -/
def sumTimesZ : Operator ComplexDouble :=
  .mul (.add (.pauli .x) (.pauli .y)) (.pauli .z)

/-- An error at the second operand of the sum. -/
def refuseY : Node ComplexDouble → Option Error
  | .operator (.pauli .y) => some (.verificationFailed "Noting" (.unscaledTerm "Y"))
  | _ => none

/-- From the right, the second operand of the sum is the third node; the walk ends there. -/
theorem walk_visits_until_refused :
    (walk (.inOrder true) (Rule.noting refuseY) sumTimesZ).run [] =
      (.error (.verificationFailed "Noting" (.unscaledTerm "Y")),
        [.operator (.pauli .z), .operator sumTimesZ, .operator (.pauli .y)]) :=
  (Outlined.walk_visits (Rule.noting_neverRewrites refuseY) (.inOrder true) sumTimesZ).2.2.2
    [.operator (.pauli .z), .operator sumTimesZ] (.operator (.pauli .y))
    [.operator (.add (.pauli .x) (.pauli .y)), .operator (.pauli .x)] [] _ _ _ rfl rfl rfl

end SpinBoson
