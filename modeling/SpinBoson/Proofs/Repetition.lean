import Mathlib.Logic.Function.Iterate
import SpinBoson.Proofs.Rewriting

/-!
What runs of passes preserve, and runs in which every repetition ends because nothing changes any
more and not because of its cap.
-/
namespace SpinBoson

variable {ε α : Type}

theorem iterate_related [BEq α] {R : α → α → Prop} (refl : ∀ a, R a a)
    (trans : ∀ {a b c}, R a b → R b c → R a c) {f : α → Except ε α}
    (hf : ∀ a b, f a = .ok b → R a b) {left done : Nat} {a b : α} {c : Convergence}
    (h : iterate f left done a = .ok (b, c)) : R a b := by
  induction left generalizing done a with
  | zero => cases h; exact refl _
  | succ left ih =>
    obtain ⟨next, hnext, h⟩ := bind_eq_ok.mp h
    split at h
    · cases h
      exact hf _ _ hnext
    · exact trans (hf _ _ hnext) (ih h)

/-- Without a failure all iterations count, also those that a repetition leaves out. -/
theorem iterate_eq [BEq α] [LawfulBEq α] {f : α → Except ε α} {g : α → α}
    (hf : ∀ a b, f a = .ok b → b = g a) {left done : Nat} {a b : α} {c : Convergence}
    (h : iterate f left done a = .ok (b, c)) : b = g^[left] a := by
  induction left generalizing done a with
  | zero => cases h; rfl
  | succ left ih =>
    obtain ⟨next, hnext, h⟩ := bind_eq_ok.mp h
    rw [Function.iterate_succ_apply, ← hf a next hnext]
    split at h
    · rename_i hsame
      cases h
      have hfixed : g b = b := by rw [eq_of_beq hsame, ← hf a b hnext, eq_of_beq hsame]
      exact (Function.iterate_fixed hfixed left).symm
    · exact ih h

/--
Whether a repetition of `f` ends by itself within so many iterations, at each of which `inner`
holds; a failure ends it too.
-/
def EndsWithin [BEq α] (f : α → Except ε α) (inner : α → Prop) : Nat → α → Prop
  | 0, _ => False
  | left + 1, a => inner a ∧ ∀ next, f a = .ok next → (next == a) = true ∨ EndsWithin f inner left next

/-- A repetition that ends by itself and cannot fail has found a value equal to its successor. -/
theorem iterate_of_endsWithin [BEq α] {f : α → Except ε α} {inner P : α → Prop}
    (hf : ∀ a, P a → inner a → ∃ b, f a = .ok b ∧ P b) {left done : Nat} {a : α} (hP : P a)
    (h : EndsWithin f inner left a) :
    ∃ last b c, iterate f left done a = .ok (b, c) ∧ P last ∧ inner last ∧ f last = .ok b ∧
      P b ∧ (b == last) = true := by
  induction left generalizing done a with
  | zero => exact h.elim
  | succ left ih =>
    obtain ⟨next, hnext, hPnext⟩ := hf a hP h.1
    by_cases heq : (next == a) = true
    · refine ⟨a, next, ⟨true, done + 1⟩, ?_, hP, h.1, hnext, hPnext, heq⟩
      simp only [iterate, hnext, ok_bind, heq, if_true]
      rfl
    · obtain ⟨last, b, c, hrun, hrest⟩ :=
        @ih (done + 1) next hPnext ((h.2 next hnext).resolve_left heq)
      refine ⟨last, b, c, ?_, hrest⟩
      simp [iterate, hnext, heq, hrun]

theorem endsWithin_of_fixed [BEq α] {f : α → Except ε α} {inner : α → Prop} {n : Nat} {a : α}
    (hn : 0 < n) (h : f a = .ok a) (hself : (a == a) = true) (hinner : inner a) :
    EndsWithin f inner n a := by
  obtain ⟨n, rfl⟩ := Nat.exists_eq_add_one_of_ne_zero (Nat.ne_of_gt hn)
  refine ⟨hinner, fun next hnext => .inl ?_⟩
  cases h.symm.trans hnext
  exact hself

namespace Pass

theorem iterations_pos (cap : Nat) : 0 < iterations cap :=
  Nat.lt_of_lt_of_le Nat.one_pos (Nat.le_max_right cap 1)

theorem runAll_cons [BEq α] {pass : Pass α} {rest : List (Pass α)} {a b : α}
    (h : pass.run a = .ok b) : runAll (pass :: rest) a = runAll rest b := by
  simp only [runAll, h, ok_bind]

theorem runAll_cons_error [BEq α] {pass : Pass α} {rest : List (Pass α)} {a : α} {e : Error}
    (h : pass.run a = .error e) : runAll (pass :: rest) a = .error e := by
  simp only [runAll, h]
  rfl

theorem run_fixedPoint_eq [BEq α] [LawfulBEq α] {cap : Nat} {pass : Pass α} {g : α → α}
    (hg : ∀ a b, pass.run a = .ok b → b = g a) {a b : α} (h : (fixedPoint cap pass).run a = .ok b) :
    b = g^[iterations cap] a := by
  rw [run] at h
  cases hrun : iterate pass.run (iterations cap) 0 a with
  | error e =>
    rw [hrun] at h
    cases h
  | ok r =>
    rw [hrun] at h
    cases h
    exact iterate_eq hg hrun

/-- A repetition leaves a value alone that its pass leaves alone. -/
theorem run_fixedPoint_of_fixed [BEq α] {cap : Nat} {pass : Pass α} {a : α}
    (h : pass.run a = .ok a) (hself : (a == a) = true) : (fixedPoint cap pass).run a = .ok a := by
  have hpos : iterations cap = (iterations cap - 1) + 1 := by
    have := iterations_pos cap
    omega
  rw [run, hpos]
  simp only [iterate, h, ok_bind, hself, if_true]
  rfl

/-- A repetition runs its pass at least once. -/
theorem exists_run_of_fixedPoint [BEq α] {cap : Nat} {pass : Pass α} {a b : α}
    (h : (fixedPoint cap pass).run a = .ok b) : ∃ next, pass.run a = .ok next := by
  obtain ⟨n, hn⟩ := Nat.exists_eq_add_of_lt (iterations_pos cap)
  cases hrun : pass.run a with
  | ok next => exact ⟨next, rfl⟩
  | error e =>
    rw [run, hn, iterate, hrun] at h
    cases h

mutual

/-- Whether every step leads only from values to values that are related to them. -/
def Respects (R : α → α → Prop) : Pass α → Prop
  | step _ _ f => ∀ a b, f a = .ok b → R a b
  | chain _ passes => RespectsAll R passes
  | fixedPoint _ pass => pass.Respects R

def RespectsAll (R : α → α → Prop) : List (Pass α) → Prop
  | [] => True
  | pass :: rest => pass.Respects R ∧ RespectsAll R rest

end

section Related

variable [BEq α] {R : α → α → Prop} (refl : ∀ a, R a a)
  (trans : ∀ {a b c}, R a b → R b c → R a c)

include refl trans

mutual

theorem run_related : ∀ (pass : Pass α), pass.Respects R → ∀ {a b : α}, pass.run a = .ok b → R a b
  | step _ _ _, hpass, _, _, h => hpass _ _ h
  | chain _ passes, hpass, _, _, h => runAll_related passes hpass h
  | fixedPoint cap pass, hpass, a, b, h => by
    simp only [run] at h
    cases hrun : iterate pass.run (iterations cap) 0 a with
    | error e =>
      rw [hrun] at h
      cases h
    | ok r =>
      rw [hrun] at h
      cases h
      exact iterate_related refl trans (fun _ _ => run_related pass hpass) hrun

theorem runAll_related : ∀ (passes : List (Pass α)), RespectsAll R passes →
    ∀ {a b : α}, runAll passes a = .ok b → R a b
  | [], _, _, _, h => by cases h; exact refl _
  | pass :: rest, hpasses, a, b, h => by
    simp only [runAll] at h
    obtain ⟨d, hd, h⟩ := bind_eq_ok.mp h
    exact trans (run_related pass hpasses.1 hd) (runAll_related rest hpasses.2 h)

end

end Related

mutual

/--
Whether every repetition in the run of a pass on a value ends by itself. Steps that run passes of
their own are asked by name for `nested`.
-/
def Settles [BEq α] (nested : String → α → Prop) : Pass α → α → Prop
  | step name _ _, a => nested name a
  | chain _ passes, a => SettlesAll nested passes a
  | fixedPoint cap pass, a => EndsWithin pass.run (pass.Settles nested) (iterations cap) a

def SettlesAll [BEq α] (nested : String → α → Prop) : List (Pass α) → α → Prop
  | [], _ => True
  | pass :: rest, a => pass.Settles nested a ∧ ∀ b, pass.run a = .ok b → SettlesAll nested rest b

end

/--
Whether a pass that settles leads from values with one property to values with another one, without
a failure.
-/
def Achieves [BEq α] (nested : String → α → Prop) (P : α → Prop) (pass : Pass α) (Q : α → Prop) :
    Prop :=
  ∀ a, P a → pass.Settles nested a → ∃ b, pass.run a = .ok b ∧ Q b

/-- The same for passes that run one after the other. -/
def AchievesAll [BEq α] (nested : String → α → Prop) (P : α → Prop) (passes : List (Pass α))
    (Q : α → Prop) : Prop :=
  ∀ a, P a → SettlesAll nested passes a → ∃ b, runAll passes a = .ok b ∧ Q b

section Achieves

variable [BEq α] {nested : String → α → Prop} {P Q R : α → Prop}

theorem Achieves.imp {pass : Pass α} {P' Q' : α → Prop} (h : pass.Achieves nested P Q)
    (hP : ∀ a, P' a → P a) (hQ : ∀ a, Q a → Q' a) : pass.Achieves nested P' Q' := by
  intro a ha hset
  obtain ⟨b, hb, hQb⟩ := h a (hP a ha) hset
  exact ⟨b, hb, hQ b hQb⟩

theorem achieves_step {name : String} {isCheck : Bool} {f : α → Except Error α}
    (h : ∀ a, P a → nested name a → ∃ b, f a = .ok b ∧ Q b) :
    (step name isCheck f).Achieves nested P Q :=
  fun a ha hset => h a ha hset

theorem achievesAll_nil (h : ∀ a, P a → Q a) : AchievesAll nested P [] Q :=
  fun a ha _ => ⟨a, rfl, h a ha⟩

theorem achievesAll_cons {pass : Pass α} {rest : List (Pass α)} (hpass : pass.Achieves nested P Q)
    (hrest : AchievesAll nested Q rest R) : AchievesAll nested P (pass :: rest) R := by
  rintro a ha ⟨hset, hsetRest⟩
  obtain ⟨b, hb, hQ⟩ := hpass a ha hset
  obtain ⟨c, hc, hR⟩ := hrest b hQ (hsetRest b hb)
  exact ⟨c, bind_eq_ok.mpr ⟨b, hb, hc⟩, hR⟩

/--
A repetition that settles keeps what every iteration keeps, and ends with what the iteration that
changes nothing shows.
-/
theorem achieves_fixedPoint {cap : Nat} {pass : Pass α}
    (h : ∀ a, P a → pass.Settles nested a →
      ∃ b, pass.run a = .ok b ∧ P b ∧ ((b == a) = true → Q b)) :
    (fixedPoint cap pass).Achieves nested P Q := by
  intro a ha hset
  have hstep : ∀ x, P x → pass.Settles nested x → ∃ y, pass.run x = .ok y ∧ P y := by
    intro x hx hsx
    obtain ⟨y, hy, hPy, _⟩ := h x hx hsx
    exact ⟨y, hy, hPy⟩
  obtain ⟨last, b, c, hrun, hPlast, hinner, hlast, _, heq⟩ :
      ∃ last b c, iterate pass.run (iterations cap) 0 a = .ok (b, c) ∧ P last ∧
        pass.Settles nested last ∧ pass.run last = .ok b ∧ P b ∧ (b == last) = true :=
    iterate_of_endsWithin hstep ha hset
  obtain ⟨b', hb', _, hQ⟩ := h last hPlast hinner
  obtain rfl : b' = b := Except.ok.inj (hb'.symm.trans hlast)
  exact ⟨b', by simp only [run, hrun]; rfl, hQ heq⟩

end Achieves

/-! Values that passes leave alone -/

/-- Whether a pass returns the value that it is given, and all its repetitions end by themselves. -/
def LeavesAlone [BEq α] (nested : String → α → Prop) (pass : Pass α) (a : α) : Prop :=
  pass.run a = .ok a ∧ pass.Settles nested a

section LeavesAlone

variable [BEq α] {nested : String → α → Prop} {a : α}

theorem leavesAlone_step {name : String} {isCheck : Bool} {f : α → Except Error α}
    (h : f a = .ok a) (hnested : nested name a) : (step name isCheck f).LeavesAlone nested a :=
  ⟨h, hnested⟩

theorem settlesAll_cons {pass : Pass α} {rest : List (Pass α)} {b : α}
    (hset : pass.Settles nested a) (hrun : pass.run a = .ok b) (hrest : SettlesAll nested rest b) :
    SettlesAll nested (pass :: rest) a := by
  refine ⟨hset, fun c hc => ?_⟩
  cases hrun.symm.trans hc
  exact hrest

theorem leaveAlone_all {passes : List (Pass α)} (h : ∀ pass ∈ passes, pass.LeavesAlone nested a) :
    runAll passes a = .ok a ∧ SettlesAll nested passes a := by
  induction passes with
  | nil => exact ⟨rfl, trivial⟩
  | cons pass rest ih =>
    rw [List.forall_mem_cons] at h
    obtain ⟨hrun, hset⟩ := ih h.2
    exact ⟨(runAll_cons h.1.1).trans hrun, settlesAll_cons h.1.2 h.1.1 hset⟩

theorem leavesAlone_chain {name : String} {passes : List (Pass α)}
    (h : ∀ pass ∈ passes, pass.LeavesAlone nested a) : (chain name passes).LeavesAlone nested a :=
  leaveAlone_all h

theorem leavesAlone_fixedPoint {cap : Nat} {pass : Pass α} (h : pass.LeavesAlone nested a)
    (hself : (a == a) = true) : (fixedPoint cap pass).LeavesAlone nested a :=
  ⟨run_fixedPoint_of_fixed h.1 hself, endsWithin_of_fixed (iterations_pos cap) h.1 hself h.2⟩

end LeavesAlone

end Pass

end SpinBoson
