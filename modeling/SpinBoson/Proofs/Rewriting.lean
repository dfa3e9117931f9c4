import Mathlib.Data.List.Forall2
import SpinBoson.Pass

/-!
Walks with rules that act on operators or on coefficients alone, as functions on trees, and the
relations between a tree and the tree that a walk leaves.
-/
namespace SpinBoson

variable {κ : Type}

@[simp]
theorem ok_bind {ε α β : Type} (a : α) (f : α → Except ε β) : Except.ok a >>= f = f a := rfl

theorem bind_eq_ok {ε α β : Type} {x : Except ε α} {f : α → Except ε β} {b : β} :
    x >>= f = .ok b ↔ ∃ a, x = .ok a ∧ f a = .ok b := by
  cases x with
  | error e =>
    constructor
    · intro h
      cases h
    · rintro ⟨_, h, _⟩
      cases h
  | ok a =>
    constructor
    · intro h
      exact ⟨a, rfl, h⟩
    · rintro ⟨_, h, hf⟩
      cases h
      exact hf

theorem bind_eq_error {ε α β : Type} {x : Except ε α} {f : α → Except ε β} {e : ε} :
    x >>= f = .error e ↔ x = .error e ∨ ∃ a, x = .ok a ∧ f a = .error e := by
  cases x with
  | error e' =>
    constructor
    · intro h
      cases h
      exact .inl rfl
    · rintro (h | ⟨_, h, _⟩)
      · cases h
        rfl
      · cases h
  | ok a =>
    constructor
    · exact fun h => .inr ⟨a, rfl, h⟩
    · rintro (h | ⟨_, h, hf⟩)
      · cases h
      · cases h
        exact hf

theorem map_eq_error {ε α β : Type} {x : Except ε α} {f : α → β} {e : ε} :
    f <$> x = .error e ↔ x = .error e := by
  cases x <;> simp [Functor.map, Except.map]

theorem exists_of_forall₂ {α β : Type} {R : α → β → Prop} {as : List α} {bs : List β}
    (h : List.Forall₂ R as bs) {b : β} (hb : b ∈ bs) : ∃ a ∈ as, R a b := by
  induction h with
  | nil => cases hb
  | cons hab _ ih =>
    rcases List.mem_cons.mp hb with rfl | hb
    · exact ⟨_, List.mem_cons_self, hab⟩
    · obtain ⟨a, ha, hR⟩ := ih hb
      exact ⟨a, List.mem_cons_of_mem _ ha, hR⟩

theorem forall₂_both {α β : Type} {R S : α → β → Prop} {as : List α} {bs : List β}
    (hR : List.Forall₂ R as bs) (hS : List.Forall₂ S as bs) :
    List.Forall₂ (fun a b => R a b ∧ S a b) as bs := by
  induction hR with
  | nil => exact .nil
  | cons h _ ih =>
    cases hS with
    | cons h' hrest => exact .cons ⟨h, h'⟩ (ih hrest)

theorem mapM_eq_some {α β : Type} {f : α → Option β} {as : List α} {bs : List β} :
    as.mapM f = some bs ↔ List.Forall₂ (fun a b => f a = some b) as bs := by
  induction as generalizing bs with
  | nil => cases bs <;> simp
  | cons a as ih =>
    rw [List.mapM_cons]
    constructor
    · intro h
      obtain ⟨b, hb, h⟩ := Option.bind_eq_some_iff.mp h
      obtain ⟨rest, hrest, h⟩ := Option.bind_eq_some_iff.mp h
      cases h
      exact .cons hb (ih.mp hrest)
    · intro h
      cases h with
      | cons hb hrest =>
        exact Option.bind_eq_some_iff.mpr
          ⟨_, hb, Option.bind_eq_some_iff.mpr ⟨_, ih.mpr hrest, rfl⟩⟩

theorem mapM_eq_ok {ε α β : Type} {f : α → Except ε β} {as : List α} {bs : List β} :
    as.mapM f = .ok bs ↔ List.Forall₂ (fun a b => f a = .ok b) as bs := by
  induction as generalizing bs with
  | nil =>
    cases bs with
    | nil => exact ⟨fun _ => .nil, fun _ => rfl⟩
    | cons b bs =>
      constructor
      · intro h
        cases h
      · intro h
        cases h
  | cons a as ih =>
    rw [List.mapM_cons]
    constructor
    · intro h
      obtain ⟨b, hb, h⟩ := bind_eq_ok.mp h
      obtain ⟨rest, hrest, h⟩ := bind_eq_ok.mp h
      cases h
      exact .cons hb (ih.mp hrest)
    · intro h
      cases h with
      | cons hb hrest => exact bind_eq_ok.mpr ⟨_, hb, bind_eq_ok.mpr ⟨_, ih.mpr hrest, rfl⟩⟩

namespace Coeff

/-- Puts `f` of a node in its place, at all nodes from the leaves up. -/
def rewrite (f : Coeff κ → Coeff κ) : Coeff κ → Coeff κ
  | lit z => f (lit z)
  | var name => f (var name)
  | raw text => f (raw text)
  | neg e => f (neg (e.rewrite f))
  | bin op a b => f (bin op (a.rewrite f) (b.rewrite f))
  | app g e => f (app g (e.rewrite f))

/-- Whether a property holds at every node. -/
def AllNodes (P : Coeff κ → Prop) : Coeff κ → Prop
  | lit z => P (lit z)
  | var name => P (var name)
  | raw text => P (raw text)
  | neg e => P (neg e) ∧ e.AllNodes P
  | bin op a b => P (bin op a b) ∧ a.AllNodes P ∧ b.AllNodes P
  | app g e => P (app g e) ∧ e.AllNodes P

theorem AllNodes.root {P : Coeff κ → Prop} {e : Coeff κ} (h : e.AllNodes P) : P e := by
  cases e with
  | lit | var | raw => exact h
  | neg | bin | app => exact h.1

theorem AllNodes.imp {P Q : Coeff κ → Prop} (hPQ : ∀ e, P e → Q e) {e : Coeff κ}
    (h : e.AllNodes P) : e.AllNodes Q := by
  induction e with
  | lit | var | raw => exact hPQ _ h
  | neg e ih | app f e ih => exact ⟨hPQ _ h.1, ih h.2⟩
  | bin op a b iha ihb => exact ⟨hPQ _ h.1, iha h.2.1, ihb h.2.2⟩

theorem rewrite_of_allNodes {f : Coeff κ → Coeff κ} {e : Coeff κ}
    (h : e.AllNodes fun x => f x = x) : e.rewrite f = e := by
  induction e with
  | lit | var | raw => exact h
  | neg e ih | app g e ih => rw [rewrite, ih h.2, h.1]
  | bin op a b iha ihb => rw [rewrite, iha h.2.1, ihb h.2.2, h.1]

/-- A relation that may be used at any place of a tree, any number of times. -/
structure Congruence (R : Coeff κ → Coeff κ → Prop) : Prop where
  refl : ∀ e, R e e
  trans : ∀ {a b c}, R a b → R b c → R a c
  neg : ∀ {e e'}, R e e' → R (neg e) (neg e')
  bin : ∀ {op a a' b b'}, R a a' → R b b' → R (bin op a b) (bin op a' b')
  app : ∀ {f e e'}, R e e' → R (app f e) (app f e')

theorem eq_congruence : Congruence (Eq : Coeff κ → Coeff κ → Prop) where
  refl _ := rfl
  trans := Eq.trans
  neg := congrArg _
  bin := congrArg₂ _
  app := congrArg _

theorem up_related {R : Coeff κ → Coeff κ → Prop} (hR : Congruence R)
    {r : Rule κ (Except Error)} (hr : ∀ e e', r.coeff e = .ok e' → R e e') :
    ∀ {e e' : Coeff κ}, e.up r = .ok e' → R e e' := by
  intro e
  induction e with
  | lit | var | raw => exact hr _ _
  | neg e ih =>
    intro e' h
    simp only [up] at h
    obtain ⟨d, hd, h⟩ := bind_eq_ok.mp h
    exact hR.trans (hR.neg (ih hd)) (hr _ _ h)
  | bin op a b iha ihb =>
    intro e' h
    simp only [up] at h
    obtain ⟨a', ha, h⟩ := bind_eq_ok.mp h
    obtain ⟨b', hb, h⟩ := bind_eq_ok.mp h
    exact hR.trans (hR.bin (iha ha) (ihb hb)) (hr _ _ h)
  | app f e ih =>
    intro e' h
    simp only [up] at h
    obtain ⟨d, hd, h⟩ := bind_eq_ok.mp h
    exact hR.trans (hR.app (ih hd)) (hr _ _ h)

/-- A walk fails where its rule does. -/
theorem up_error {r : Rule κ (Except Error)} {E : Error → Prop}
    (hr : ∀ c e, r.coeff c = .error e → E e) {c : Coeff κ} {e : Error}
    (h : c.up r = .error e) : E e := by
  induction c with
  | lit | var | raw => exact hr _ _ h
  | neg c ih | app f c ih =>
    rcases bind_eq_error.mp h with h | ⟨d, _, h⟩
    · exact ih h
    · exact hr _ _ h
  | bin op c d ihc ihd =>
    rcases bind_eq_error.mp h with h | ⟨c', _, h⟩
    · exact ihc h
    · rcases bind_eq_error.mp h with h | ⟨d', _, h⟩
      · exact ihd h
      · exact hr _ _ h

theorem up_ofCoeff (name : String) (f : Coeff κ → Coeff κ) (e : Coeff κ) :
    e.up (Rule.ofCoeff name fun e => .ok (f e) : Rule κ (Except Error)) = .ok (e.rewrite f) := by
  induction e with
  | lit | var | raw => rfl
  | neg e ih | app g e ih => simp only [up, ih, rewrite]; rfl
  | bin op a b iha ihb => simp only [up, iha, ihb, rewrite]; rfl

end Coeff

namespace Operator

/-- Puts `f` of a node in its place, at all nodes from the leaves up. -/
def rewrite (f : Operator κ → Operator κ) : Operator κ → Operator κ
  | spin s => f (spin s)
  | mode l => f (mode l)
  | bin op a b => f (bin op (a.rewrite f) (b.rewrite f))
  | scale c a => f (scale c (a.rewrite f))

/-- Whether a property holds at every node. -/
def AllNodes (P : Operator κ → Prop) : Operator κ → Prop
  | spin s => P (spin s)
  | mode l => P (mode l)
  | bin op a b => P (bin op a b) ∧ a.AllNodes P ∧ b.AllNodes P
  | scale c a => P (scale c a) ∧ a.AllNodes P

theorem AllNodes.root {P : Operator κ → Prop} {a : Operator κ} (h : a.AllNodes P) : P a := by
  cases a with
  | spin | mode => exact h
  | bin | scale => exact h.1

theorem AllNodes.imp {P Q : Operator κ → Prop} (hPQ : ∀ a, P a → Q a) {a : Operator κ}
    (h : a.AllNodes P) : a.AllNodes Q := by
  induction a with
  | spin | mode => exact hPQ _ h
  | bin op a b iha ihb => exact ⟨hPQ _ h.1, iha h.2.1, ihb h.2.2⟩
  | scale c a ih => exact ⟨hPQ _ h.1, ih h.2⟩

/-- The coefficients in an operator, left to right. -/
def coeffs : Operator κ → List (Coeff κ)
  | spin _ | mode _ => []
  | bin _ a b => a.coeffs ++ b.coeffs
  | scale c a => c :: a.coeffs

/-- A relation that may be used at any place of a tree, any number of times. -/
structure Congruence (R : Operator κ → Operator κ → Prop) : Prop where
  refl : ∀ a, R a a
  trans : ∀ {a b c}, R a b → R b c → R a c
  bin : ∀ {op a a' b b'}, R a a' → R b b' → R (bin op a b) (bin op a' b')
  scale : ∀ {c a a'}, R a a' → R (scale c a) (scale c a')

theorem eq_congruence : Congruence (Eq : Operator κ → Operator κ → Prop) where
  refl _ := rfl
  trans := Eq.trans
  bin := congrArg₂ _
  scale := congrArg _

end Operator

/-- Coefficients are left alone by a walk with a rule that leaves each of their nodes alone. -/
theorem Coeff.up_of_coeff_pure {m : Type → Type} [Monad m] [LawfulMonad m] {r : Rule κ m}
    (hr : r.coeff = pure) (e : Coeff κ) : e.up r = pure e := by
  induction e <;> simp_all [Coeff.up]

theorem Coeff.down_of_coeff_pure {m : Type → Type} [Monad m] [LawfulMonad m] {r : Rule κ m}
    (hr : r.coeff = pure) (turn : Turn) (n : Nat) (e : Coeff κ) : e.down r turn n = pure e := by
  induction n generalizing e with
  | zero => rfl
  | succ n ih => cases turn <;> cases e <;> simp_all [Coeff.down, Coeff.mapOperands]

namespace Operator

section Related

variable {R : Operator κ → Operator κ → Prop} {r : Rule κ (Except Error)}

theorem up_related (hR : Congruence R) (hc : ∀ c d, r.coeff c = .ok d → c = d)
    (hr : ∀ a b, r.operator a = .ok b → R a b) {a b : Operator κ} (h : a.up r = .ok b) :
    R a b := by
  induction a generalizing b with
  | spin | mode => exact hr _ _ h
  | bin op a₁ a₂ ih₁ ih₂ =>
    simp only [up] at h
    obtain ⟨b₁, h₁, h⟩ := bind_eq_ok.mp h
    obtain ⟨b₂, h₂, h⟩ := bind_eq_ok.mp h
    exact hR.trans (hR.bin (ih₁ h₁) (ih₂ h₂)) (hr _ _ h)
  | scale c a ih =>
    simp only [up] at h
    obtain ⟨d, hd, h⟩ := bind_eq_ok.mp h
    obtain ⟨b', h', h⟩ := bind_eq_ok.mp h
    obtain rfl := Coeff.up_related Coeff.eq_congruence hc hd
    exact hR.trans (hR.scale (ih h')) (hr _ _ h)

theorem mapOperands_related (hR : Congruence R) {onCoeff : Coeff κ → Except Error (Coeff κ)}
    (hc : onCoeff = pure) {f : Operator κ → Except Error (Operator κ)}
    (hf : ∀ a b, f a = .ok b → R a b) {a b : Operator κ} (h : a.mapOperands onCoeff f = .ok b) :
    R a b := by
  cases a with
  | spin | mode => cases h; exact hR.refl _
  | bin op a₁ a₂ =>
    obtain ⟨b₁, h₁, h⟩ := bind_eq_ok.mp h
    obtain ⟨b₂, h₂, h⟩ := bind_eq_ok.mp h
    cases h
    exact hR.bin (hf _ _ h₁) (hf _ _ h₂)
  | scale c a =>
    subst hc
    simp only [mapOperands, pure_bind] at h
    obtain ⟨b', h', h⟩ := bind_eq_ok.mp h
    cases h
    exact hR.scale (hf _ _ h')

theorem down_related (hR : Congruence R) (hc : r.coeff = pure)
    (hr : ∀ a b, r.operator a = .ok b → R a b) (turn : Turn) (n : Nat) {a b : Operator κ}
    (h : a.down r turn n = .ok b) : R a b := by
  induction n generalizing a b with
  | zero => cases h; exact hR.refl _
  | succ n ih =>
    -- a node that is visited first, whatever its kind
    have first {a b : Operator κ} (h : (do
        let a ← r.operator a
        if r.descends a then a.mapOperands (Coeff.down r turn n) (down r turn n) else return a) =
          Except.ok b) : R a b := by
      obtain ⟨a', ha, h⟩ := bind_eq_ok.mp h
      split at h
      · have hcoeff : Coeff.down r turn n = pure := funext (Coeff.down_of_coeff_pure hc turn n)
        exact hR.trans (hr _ _ ha) (mapOperands_related hR hcoeff (fun _ _ => ih) h)
      · cases h
        exact hr _ _ ha
    cases turn with
    | first => exact first h
    | afterLeft =>
      cases a with
      | spin | mode | scale => exact first h
      | bin op a₁ a₂ =>
        obtain ⟨b₁, h₁, h⟩ := bind_eq_ok.mp h
        obtain ⟨d, hd, h⟩ := bind_eq_ok.mp h
        have hrel := hR.trans (hR.bin (ih h₁) (hR.refl a₂)) (hr _ _ hd)
        cases d with
        | spin | mode | scale => cases h; exact hrel
        | bin op' d₁ d₂ =>
          obtain ⟨b₂, h₂, h⟩ := bind_eq_ok.mp h
          cases h
          exact hR.trans hrel (hR.bin (hR.refl _) (ih h₂))
    | afterRight =>
      cases a with
      | spin | mode | scale => exact first h
      | bin op a₁ a₂ =>
        obtain ⟨b₂, h₂, h⟩ := bind_eq_ok.mp h
        obtain ⟨d, hd, h⟩ := bind_eq_ok.mp h
        have hrel := hR.trans (hR.bin (hR.refl a₁) (ih h₂)) (hr _ _ hd)
        cases d with
        | spin | mode | scale => cases h; exact hrel
        | bin op' d₁ d₂ =>
          obtain ⟨b₁, h₁, h⟩ := bind_eq_ok.mp h
          cases h
          exact hR.trans hrel (hR.bin (ih h₁) (hR.refl _))

end Related

theorem up_ofOperator (name : String) (f : Operator κ → Operator κ) (a : Operator κ) :
    a.up (Rule.ofOperator name fun a => .ok (f a) : Rule κ (Except Error)) = .ok (a.rewrite f) := by
  induction a with
  | spin | mode => rfl
  | bin op a b iha ihb => simp only [up, iha, ihb, rewrite]; rfl
  | scale c a ih =>
    have hc : (Rule.ofOperator name fun a => .ok (f a) : Rule κ (Except Error)).coeff = pure := rfl
    simp only [up, Coeff.up_of_coeff_pure hc, ih, rewrite]
    rfl

end Operator

end SpinBoson
