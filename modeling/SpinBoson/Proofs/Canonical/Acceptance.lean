import SpinBoson.Proofs.Coeff.NormalForm
import SpinBoson.Proofs.Containers
import SpinBoson.Proofs.Operator.Checks

/-!
What checks accept. A check of a value that holds operators accepts exactly the values each operator
of which it accepts, and returns them as they are.
-/
namespace SpinBoson

variable {κ ρ α : Type}

/-! One coefficient or operator -/

theorem Coeff.up_eq_ok_iff {r : Rule κ (Except Error)} (hr : ∀ e e', r.coeff e = .ok e' → e = e')
    {e e' : Coeff κ} : e.up r = .ok e' ↔ e' = e ∧ e.AllNodes fun x => r.coeff x = .ok x := by
  constructor
  · intro h
    obtain rfl := up_related eq_congruence hr h
    refine ⟨rfl, ?_⟩
    induction e with
    | lit | var | raw => exact h
    | neg e ih | app f e ih =>
      obtain ⟨d, hd, hnode⟩ := bind_eq_ok.mp h
      obtain rfl := up_related eq_congruence hr hd
      exact ⟨hnode, ih hd⟩
    | bin op a b iha ihb =>
      obtain ⟨a', ha, h⟩ := bind_eq_ok.mp h
      obtain ⟨b', hb, hnode⟩ := bind_eq_ok.mp h
      obtain rfl := up_related eq_congruence hr ha
      obtain rfl := up_related eq_congruence hr hb
      exact ⟨hnode, iha ha, ihb hb⟩
  · rintro ⟨rfl, h⟩
    induction e' with
    | lit | var | raw => exact h
    | neg e ih | app f e ih =>
      simp only [up, ih h.2, ok_bind]
      exact h.1
    | bin op a b iha ihb =>
      simp only [up, iha h.2.1, ihb h.2.2, ok_bind]
      exact h.1

namespace Operator

variable {r : Rule κ (Except Error)} {a b : Operator κ}

/-- From the leaves up, a check accepts operators that it accepts at all nodes, coefficients
included. -/
theorem up_eq_ok_iff (hc : ∀ c d, r.coeff c = .ok d → c = d)
    (hr : ∀ a b, r.operator a = .ok b → a = b) : a.up r = .ok b ↔ b = a ∧
      (∀ c ∈ a.coeffs, c.AllNodes fun x => r.coeff x = .ok x) ∧
        a.AllNodes fun x => r.operator x = .ok x := by
  constructor
  · intro h
    obtain rfl := up_related eq_congruence hc hr h
    refine ⟨rfl, ?_⟩
    induction a with
    | spin | mode => exact ⟨fun c hc => absurd hc (List.not_mem_nil), h⟩
    | bin op x y ihx ihy =>
      obtain ⟨x', hx, h⟩ := bind_eq_ok.mp h
      obtain ⟨y', hy, hnode⟩ := bind_eq_ok.mp h
      obtain rfl := up_related eq_congruence hc hr hx
      obtain rfl := up_related eq_congruence hc hr hy
      obtain ⟨hcx, hx⟩ := ihx hx
      obtain ⟨hcy, hy⟩ := ihy hy
      exact ⟨List.forall_mem_append.mpr ⟨hcx, hcy⟩, hnode, hx, hy⟩
    | scale c x ih =>
      obtain ⟨c', hcoeff, h⟩ := bind_eq_ok.mp h
      obtain ⟨x', hx, hnode⟩ := bind_eq_ok.mp h
      obtain ⟨rfl, hcoeff⟩ := (Coeff.up_eq_ok_iff hc).mp hcoeff
      obtain rfl := up_related eq_congruence hc hr hx
      obtain ⟨hcx, hx⟩ := ih hx
      exact ⟨List.forall_mem_cons.mpr ⟨hcoeff, hcx⟩, hnode, hx⟩
  · rintro ⟨rfl, hcoeffs, hnodes⟩
    exact up_of_allNodes (fun c hmem => (Coeff.up_eq_ok_iff hc).mpr ⟨rfl, hcoeffs c hmem⟩) hnodes

/-- From the root down, a check accepts operators that it accepts at all nodes it visits. -/
theorem down_eq_ok_iff (hc : r.coeff = pure) (hr : ∀ a b, r.operator a = .ok b → a = b) {n : Nat}
    (hn : a.height ≤ n) :
    a.down r .first n = .ok b ↔ b = a ∧ a.AllVisited r.descends fun x => r.operator x = .ok x := by
  constructor
  · intro h
    obtain rfl := down_related eq_congruence hc hr .first n h
    refine ⟨rfl, ?_⟩
    induction n generalizing a with
    | zero => cases a <;> simp [height] at hn
    | succ n ih =>
      -- the node itself, and what the walk does below it if it goes on
      have node (h : a.down r .first (n + 1) = .ok a) : r.operator a = .ok a ∧
          (r.descends a = true →
            a.mapOperands (Coeff.down r .first n) (down r .first n) = .ok a) := by
        obtain ⟨a', ha, h⟩ := bind_eq_ok.mp h
        obtain rfl := hr a a' ha
        exact ⟨ha, fun hd => by rwa [if_pos hd] at h⟩
      obtain ⟨hnode, hbelow⟩ := node h
      cases a with
      | spin | mode => exact hnode
      | bin op x y =>
        refine ⟨hnode, fun hd => ?_⟩
        obtain ⟨x', hx, h⟩ := bind_eq_ok.mp (hbelow hd)
        obtain ⟨y', hy, h⟩ := bind_eq_ok.mp h
        cases h
        simp only [height] at hn
        exact ⟨ih (by omega) hx, ih (by omega) hy⟩
      | scale c x =>
        refine ⟨hnode, fun hd => ?_⟩
        obtain ⟨c', _, h⟩ := bind_eq_ok.mp (hbelow hd)
        obtain ⟨x', hx, h⟩ := bind_eq_ok.mp h
        cases h
        simp only [height] at hn
        exact ih (by omega) hx
  · rintro ⟨rfl, h⟩
    exact down_of_allVisited hc h n

end Operator

/-! Passes -/

/-- Whether a pass returns values with a property as they are, and fails on all others. -/
def Pass.Accepts [BEq α] (pass : Pass α) (P : α → Prop) : Prop :=
  ∀ a b, pass.run a = .ok b ↔ b = a ∧ P a

namespace Pass

variable [BEq α] {P Q : α → Prop} {pass : Pass α} {passes : List (Pass α)} {name : String}

theorem Accepts.congr (h : pass.Accepts P) (hPQ : ∀ a, P a ↔ Q a) : pass.Accepts Q :=
  fun a b => (h a b).trans (and_congr_right fun _ => hPQ a)

theorem accepts_nil : (chain name [] : Pass α).Accepts fun _ => True :=
  fun a b => by rw [run, runAll, Except.ok.injEq, eq_comm, and_true]

/-- A chain of checks accepts what all of them accept. -/
theorem Accepts.cons (hp : pass.Accepts P) (hps : (chain name passes).Accepts Q) :
    (chain name (pass :: passes)).Accepts fun a => P a ∧ Q a := by
  intro a b
  have hrest := hps a b
  rw [run] at hrest
  rw [run, runAll]
  constructor
  · intro h
    obtain ⟨a', ha, hb⟩ := bind_eq_ok.mp h
    obtain ⟨rfl, hP⟩ := (hp a a').mp ha
    obtain ⟨rfl, hQ⟩ := hrest.mp hb
    exact ⟨rfl, hP, hQ⟩
  · rintro ⟨rfl, hP, hQ⟩
    exact bind_eq_ok.mpr ⟨b, (hp b b).mpr ⟨rfl, hP⟩, hrest.mpr ⟨rfl, hQ⟩⟩

theorem Accepts.error (h : pass.Accepts P) {a : α} (ha : ¬ P a) : ∃ e, pass.run a = .error e := by
  cases hrun : pass.run a with
  | error e => exact ⟨e, rfl⟩
  | ok b => exact absurd ((h a b).mp hrun).2 ha

end Pass

/-! Runs that take notes -/

/--
Whether a run that starts from notes with a property keeps the property, and returns a value if a
proposition holds; otherwise it fails with one of some errors.
-/
def Noting.Judges {σ : Type} (I : σ → Prop) (E : Error → Prop) (x : Noting σ α) (a : α)
    (P : Prop) : Prop :=
  ∀ s, I s → (P ∧ ∃ s', I s' ∧ x.run s = (.ok a, s')) ∨
    (¬ P ∧ ∃ e s', E e ∧ x.run s = (.error e, s'))

namespace Noting

variable {σ β : Type} {I : σ → Prop} {E : Error → Prop} {x : Noting σ α} {a : α} {P Q : Prop}

theorem Judges.bind {f : α → Noting σ β} {b : β} (hx : x.Judges I E a P)
    (hf : (f a).Judges I E b Q) : (x >>= f).Judges I E b (P ∧ Q) := by
  intro s hs
  rcases hx s hs with ⟨hP, s', hs', hrun⟩ | ⟨hP, e, s', he, hrun⟩
  · rcases hf s' hs' with ⟨hQ, t, ht, hrun'⟩ | ⟨hQ, e, t, he, hrun'⟩
    · exact .inl ⟨⟨hP, hQ⟩, t, ht, (run_bind_ok hrun).trans hrun'⟩
    · exact .inr ⟨fun h => hQ h.2, e, t, he, (run_bind_ok hrun).trans hrun'⟩
  · exact .inr ⟨fun h => hP h.1, e, s', he, run_bind_error hrun⟩

theorem judges_pure (I : σ → Prop) (E : Error → Prop) (a : α) :
    (pure a : Noting σ α).Judges I E a True :=
  fun s hs => .inl ⟨trivial, s, hs, rfl⟩

theorem Judges.congr (h : x.Judges I E a P) (hPQ : P ↔ Q) : x.Judges I E a Q :=
  propext hPQ ▸ h

/-- Runs on the values of a list return the list if each of them returns its value. -/
theorem judges_mapM {f : α → Noting σ α} {P : α → Prop} {as : List α}
    (hf : ∀ a ∈ as, (f a).Judges I E a (P a)) : (as.mapM f).Judges I E as (∀ a ∈ as, P a) := by
  induction as with
  | nil =>
    rw [List.mapM_nil]
    exact (judges_pure I E []).congr (by simp)
  | cons a as ih =>
    rw [List.forall_mem_cons] at hf
    rw [List.mapM_cons]
    refine (hf.1.bind ((ih hf.2).bind (judges_pure I E (a :: as)))).congr ?_
    rw [List.forall_mem_cons, and_true]

theorem Judges.run_cases {s : σ} (h : x.Judges I E a P) (hs : I s) :
    P ∧ (x.run s).1 = .ok a ∨ ¬ P ∧ ∃ e, E e ∧ (x.run s).1 = .error e := by
  rcases h s hs with ⟨hP, s', _, hrun⟩ | ⟨hP, e, s', he, hrun⟩
  · exact .inl ⟨hP, congrArg Prod.fst hrun⟩
  · exact .inr ⟨hP, e, he, congrArg Prod.fst hrun⟩

end Noting

/-! Values that hold operators -/

namespace Container

variable [Walkable κ α] [Container κ α]

/-- Visits that leave operators as they are leave the value as it is. -/
theorem replace_mapM_eq_ok {f : Operator κ → Except Error (Operator κ)}
    (hf : ∀ x y, f x = .ok y → y = x) {a b : α} :
    replace a <$> (operators (κ := κ) a).mapM f = .ok b ↔
      b = a ∧ ∀ x ∈ operators (κ := κ) a, f x = .ok x := by
  constructor
  · intro h
    rw [map_eq_pure_bind] at h
    obtain ⟨xs, hxs, hb⟩ := bind_eq_ok.mp h
    have hxs := mapM_eq_ok.mp hxs
    have heq : operators (κ := κ) a = xs :=
      List.forall₂_eq_eq_eq ▸ hxs.imp fun x y hxy => (hf x y hxy).symm
    subst heq
    rw [replace_operators] at hb
    exact ⟨(Except.ok.inj hb).symm, List.forall₂_same.mp hxs⟩
  · rintro ⟨rfl, h⟩
    rw [mapM_eq_ok.mpr (List.forall₂_same.mpr h)]
    exact congrArg Except.ok (replace_operators b)

/-- A walk from the root down goes deep enough for every level of the operators. -/
theorem exists_levels (hα : levels κ α ≤ growth) (a : α) :
    ∃ n, (∀ x ∈ operators (κ := κ) a, x.height ≤ n) ∧
      Walkable.height κ a + growth = n + levels κ α := by
  refine ⟨Walkable.height κ a + growth - levels κ α, fun x hx => ?_, by omega⟩
  have hle := height_le a x hx
  omega

section

variable {m : Type → Type} [Monad m] [LawfulMonad m] {r : Rule κ m}

theorem exists_walk_pre (hα : levels κ α ≤ growth) (hr : r.LeavesContainers) (a : α) :
    ∃ n, (∀ x ∈ operators (κ := κ) a, x.height ≤ n) ∧
      walk .pre r a = replace a <$> (operators a).mapM (Operator.down r .first n) := by
  obtain ⟨n, hn, hlevels⟩ := exists_levels hα a
  exact ⟨n, hn, by rw [walk_pre, hlevels, down_eq hr]⟩

theorem exists_walk_fromRight (hα : levels κ α ≤ growth) (hr : r.LeavesContainers) (a : α) :
    ∃ n, (∀ x ∈ operators (κ := κ) a, x.height ≤ n) ∧
      walk (.inOrder true) r a =
        replace a <$> (operators a).mapM (Operator.down r .afterRight n) := by
  obtain ⟨n, hn, hlevels⟩ := exists_levels hα a
  exact ⟨n, hn, by rw [walk_fromRight, hlevels, down_eq hr]⟩

end

end Container

namespace Canonical

open Container

variable [Walkable κ α] [Container κ α] [BEq α] {r : Rule κ (Except Error)}
  {violation? : Operator κ → Option Violation} {name : String}

theorem leavesContainers_ofCheck :
    (Rule.ofCheck name violation? : Rule κ (Except Error)).LeavesContainers :=
  ⟨rfl, rfl, rfl⟩

theorem ofCheck_eq_ok {a b : Operator κ} :
    (Rule.ofCheck name violation?).operator a = .ok b ↔ violation? a = none ∧ a = b :=
  Rule.verdict_eq_ok

theorem check_post_accepts (hr : r.LeavesContainers) (hc : ∀ c d, r.coeff c = .ok d → c = d)
    (hop : ∀ x y, r.operator x = .ok y → x = y) :
    (check κ .post r : Pass α).Accepts fun a => ∀ x ∈ operators (κ := κ) a,
      (∀ c ∈ x.coeffs, c.AllNodes fun e => r.coeff e = .ok e) ∧
        x.AllNodes fun y => r.operator y = .ok y := by
  intro a b
  have hup {x y : Operator κ} := Operator.up_eq_ok_iff (a := x) (b := y) hc hop
  rw [check_eq, Pass.run]
  change Walkable.up r a = .ok b ↔ _
  rw [up_eq hr, replace_mapM_eq_ok fun x y hxy => (hup.mp hxy).1]
  simp only [hup, true_and]

/-- From the leaves up, a check accepts values with operators that it accepts at all nodes. -/
theorem check_up_accepts :
    (check κ .post (Rule.ofCheck name violation?) : Pass α).Accepts fun a =>
      ∀ x ∈ operators (κ := κ) a, x.AllNodes fun y => violation? y = none := by
  have hop {x y : Operator κ} :
      (Rule.ofCheck name violation?).operator x = .ok y ↔ violation? x = none ∧ x = y :=
    ofCheck_eq_ok
  refine (check_post_accepts leavesContainers_ofCheck (fun c d h => Except.ok.inj h)
    fun x y h => (hop.mp h).2).congr fun a => forall₂_congr fun x _ => ?_
  simp only [hop, and_true]
  exact and_iff_right fun c _ => Coeff.allNodes_of_forall (fun _ => rfl) c

/-- From the root down, a check accepts values with operators that it accepts at all nodes that the
walk visits. -/
theorem check_down_accepts (hα : levels κ α ≤ growth) {descends : Operator κ → Bool} :
    (check κ .pre ((Rule.ofCheck name violation?).descending descends) : Pass α).Accepts fun a =>
      ∀ x ∈ operators (κ := κ) a, x.AllVisited descends fun y => violation? y = none := by
  let r := (Rule.ofCheck (κ := κ) name violation?).descending descends
  have hop : ∀ x y, r.operator x = .ok y → x = y := fun x y h => (Rule.verdict_eq_ok.mp h).2
  intro a b
  obtain ⟨n, hn, hwalk⟩ := exists_walk_pre hα (r := r) ⟨rfl, rfl, rfl⟩ a
  rw [check_eq, Pass.run, hwalk, replace_mapM_eq_ok fun x y h =>
    (Operator.down_related Operator.eq_congruence rfl hop .first n h).symm]
  refine and_congr_right fun _ => forall₂_congr fun x hx => ?_
  rw [Operator.down_eq_ok_iff rfl hop (hn x hx)]
  simp only [r, Rule.descending, ofCheck_eq_ok, and_true, true_and]

/-- The check of subsystems fails for the dimensions of some operands, if at all. -/
theorem checkSignatures_cases (hα : levels κ α ≤ growth) (a : α) :
    (∀ x ∈ operators (κ := κ) a, ∃ s, x.signature = .ok s) ∧
        (checkSignatures κ : Pass α).run a = .ok a ∨
      (¬ ∀ x ∈ operators (κ := κ) a, ∃ s, x.signature = .ok s) ∧
        ∃ e, (∃ l r, e = .dimensionMismatch l r) ∧
          (checkSignatures κ : Pass α).run a = .error e := by
  obtain ⟨n, hn, hwalk⟩ :=
    exists_walk_fromRight hα (r := Operator.signatureCheck (κ := κ)) ⟨rfl, rfl, rfl⟩ a
  have hjudges : ((operators (κ := κ) a).mapM
      (Operator.down Operator.signatureCheck .afterRight n)).Judges (fun _ => True)
        (fun e => ∃ l r, e = .dimensionMismatch l r)
        (operators (κ := κ) a) (∀ x ∈ operators (κ := κ) a, ∃ s, x.signature = .ok s) := by
    refine Noting.judges_mapM fun x hx noted _ => ?_
    have hrun := Operator.signatureCheck_down (hn x hx) noted
    split at hrun
    · rename_i s hs
      obtain ⟨noted', hrun⟩ := hrun
      exact .inl ⟨⟨s, hs⟩, noted', trivial, hrun⟩
    · rename_i e he
      obtain ⟨l, r, noted', hrun⟩ := hrun
      refine .inr ⟨?_, _, noted', ⟨l, r, rfl⟩, hrun⟩
      rintro ⟨s, hs⟩
      cases he.symm.trans hs
  have hreplace := (hjudges.bind (f := fun xs => pure (replace a xs))
    (Noting.judges_pure _ _ _)).congr (and_iff_left trivial)
  rw [replace_operators] at hreplace
  rw [checkSignatures_eq, Pass.run, hwalk, map_eq_pure_bind]
  exact hreplace.run_cases trivial

theorem checkSignatures_accepts (hα : levels κ α ≤ growth) :
    (checkSignatures κ : Pass α).Accepts fun a =>
      ∀ x ∈ operators (κ := κ) a, ∃ s, x.signature = .ok s := by
  intro a b
  rcases checkSignatures_cases hα a with ⟨h, hrun⟩ | ⟨h, e, -, hrun⟩
  · rw [hrun, Except.ok.injEq, eq_comm]
    exact (and_iff_left h).symm
  · rw [hrun]
    exact iff_of_false nofun fun hb => h hb.2

end Canonical

end SpinBoson
