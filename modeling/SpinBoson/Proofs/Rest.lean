import Mathlib.Order.Filter.AtTopBot.Basic
import SpinBoson.Proofs.Repetition

/-!
Repetitions that come to rest. A step that descends wherever it changes something reaches a value
that it leaves unchanged, and every cap beyond the number of iterations leads to that value.
-/
namespace SpinBoson

open Filter

variable {ε α : Type}

/-- What so many iterations of a step leave. -/
def iterated (f : α → Except ε α) : Nat → α → Except ε α
  | 0, a => .ok a
  | n + 1, a => do iterated f n (← f a)

theorem iterated_succ {f : α → Except ε α} {a b : α} (h : f a = .ok b) (n : Nat) :
    iterated f (n + 1) a = iterated f n b := by
  rw [iterated, h, ok_bind]

theorem iterated_of_fixed {f : α → Except ε α} {a : α} (h : f a = .ok a) (n : Nat) :
    iterated f n a = .ok a := by
  induction n with
  | zero => rfl
  | succ n ih => rw [iterated_succ h, ih]

/-- A step that descends or changes nothing reaches a value that it leaves unchanged. -/
theorem exists_iterated_fixed {f : α → Except ε α} {P : α → Prop} {lt : α → α → Prop}
    (hlt : WellFounded lt) (hf : ∀ a, P a → ∃ b, f a = .ok b ∧ P b ∧ (b = a ∨ lt b a)) {a : α}
    (ha : P a) : ∃ n b, iterated f n a = .ok b ∧ f b = .ok b ∧ P b := by
  induction a using hlt.induction with
  | _ a ih =>
    obtain ⟨b, hb, hPb, rfl | hba⟩ := hf a ha
    · exact ⟨0, b, rfl, hb, hPb⟩
    · obtain ⟨n, c, hc, hrest⟩ := ih b hba hPb
      exact ⟨n + 1, c, (iterated_succ hb n).trans hc, hrest⟩

/-- Whether a step has changed nothing where its result tests equal to its input. -/
def Steady [BEq α] (f : α → Except ε α) : Prop :=
  ∀ a b, f a = .ok b → (b == a) = true → b = a

/-- A repetition of a steady step may as well go on up to its cap. -/
theorem iterate_eq_iterated [BEq α] {f : α → Except ε α} (hf : Steady f) (left done : Nat) (a : α) :
    (·.1) <$> iterate f left done a = iterated f left a := by
  induction left generalizing done a with
  | zero => rfl
  | succ left ih =>
    cases hfa : f a with
    | error e =>
      simp only [iterate, iterated, hfa]
      rfl
    | ok b =>
      rw [iterated_succ hfa]
      by_cases heq : (b == a) = true
      · obtain rfl := hf a b hfa heq
        rw [iterated_of_fixed hfa]
        simp only [iterate, hfa, ok_bind, heq, if_true]
        rfl
      · rw [← ih (done + 1) b]
        simp [iterate, hfa, heq]

/-- A repetition stops at the first value that the step leaves unchanged. -/
theorem iterate_of_iterated [BEq α] {f : α → Except ε α} (hf : Steady f) {n : Nat} {a b : α}
    (h : iterated f n a = .ok b) (hfixed : f b = .ok b) (hself : (b == b) = true)
    {left : Nat} (hleft : n < left) (done : Nat) :
    ∃ k, iterate f left done a = .ok (b, ⟨true, k⟩) := by
  induction n generalizing a left done with
  | zero =>
    obtain rfl : a = b := Except.ok.inj h
    obtain ⟨left, rfl⟩ := Nat.exists_eq_add_of_lt hleft
    refine ⟨done + 1, ?_⟩
    simp only [iterate, hfixed, ok_bind, hself, if_true]
    rfl
  | succ n ih =>
    obtain ⟨left, rfl⟩ := Nat.exists_eq_add_of_lt hleft
    obtain ⟨c, hc, hrest⟩ := bind_eq_ok.mp h
    by_cases heq : (c == a) = true
    · obtain rfl := hf a c hc heq
      obtain rfl : c = b := Except.ok.inj ((iterated_of_fixed hc n).symm.trans hrest)
      refine ⟨done + 1, ?_⟩
      simp only [iterate, hc, ok_bind, hself, if_true]
      rfl
    · obtain ⟨k, hk⟩ := ih hrest (by omega : n < n + 1 + left) (done + 1)
      refine ⟨k, ?_⟩
      simp [iterate, hc, heq, hk]

namespace Pass

/--
Whether repeating a pass ends by itself: some number of iterations leads to a value that the pass
leaves unchanged, and a repetition with any cap beyond that number converges to this value.
-/
def ComesToRest [BEq α] (pass : Pass α) (a : α) : Prop :=
  ∃ n b, iterated pass.run n a = .ok b ∧ pass.run b = .ok b ∧
    ∀ cap, n < cap → ∃ k, (fixedPoint cap pass).runWithReport a = .ok (b, some ⟨true, k⟩)

/-- Whether `b` is the value with which repeating a pass ends by itself. -/
def ComesToRestAt [BEq α] (pass : Pass α) (a b : α) : Prop :=
  ∃ n, iterated pass.run n a = .ok b ∧ pass.run b = .ok b ∧
    ∀ cap, n < cap → ∃ k, (fixedPoint cap pass).runWithReport a = .ok (b, some ⟨true, k⟩)

/-- Passes that descend, or change nothing, end with a value that has what they keep. -/
theorem exists_comesToRestAt [BEq α] {pass : Pass α} {P : α → Prop} {lt : α → α → Prop}
    (hlt : WellFounded lt)
    (hrun : ∀ a, P a → ∃ b, pass.run a = .ok b ∧ P b ∧ (b = a ∨ lt b a))
    (hself : ∀ a, P a → (a == a) = true) (hsteady : Steady pass.run) {a : α} (ha : P a) :
    ∃ b, pass.ComesToRestAt a b ∧ P b := by
  obtain ⟨n, b, hb, hfixed, hP⟩ := exists_iterated_fixed hlt hrun ha
  refine ⟨b, ⟨n, hb, hfixed, fun cap hcap => ?_⟩, hP⟩
  have hleft : n < iterations cap := lt_of_lt_of_le hcap (le_max_left cap 1)
  obtain ⟨k, hk⟩ := iterate_of_iterated hsteady hb hfixed (hself b hP) hleft 0
  exact ⟨k, by rw [runWithReport, hk]; rfl⟩

theorem comesToRest_of_wellFounded [BEq α] [ReflBEq α] {pass : Pass α} {lt : α → α → Prop}
    (hlt : WellFounded lt) (hrun : ∀ a, ∃ b, pass.run a = .ok b ∧ (b = a ∨ lt b a))
    (hsteady : Steady pass.run) (a : α) : pass.ComesToRest a := by
  have hrun (x : α) (_ : True) : ∃ y, pass.run x = .ok y ∧ True ∧ (y = x ∨ lt y x) := by
    simpa using hrun x
  obtain ⟨b, ⟨n, hb⟩, -⟩ := exists_comesToRestAt hlt hrun (fun _ _ => BEq.rfl) hsteady trivial
  exact ⟨n, b, hb⟩

/-! Passes with a cap that grows -/

/--
Whether passes with growing caps end up leading from one value to another one, with all their
repetitions ending by themselves.
-/
def LeadsTo [BEq α] (nested : Nat → String → α → Prop) (pass : Nat → Pass α) (a b : α) : Prop :=
  ∀ᶠ cap in atTop, (pass cap).run a = .ok b ∧ (pass cap).Settles (nested cap) a

/-- The same for passes that run one after the other. -/
def LeadToAll [BEq α] (nested : Nat → String → α → Prop) (passes : Nat → List (Pass α))
    (a b : α) : Prop :=
  ∀ᶠ cap in atTop, runAll (passes cap) a = .ok b ∧ SettlesAll (nested cap) (passes cap) a

section LeadsTo

variable [BEq α] {nested : Nat → String → α → Prop} {a b c : α}

theorem leadToAll_nil : LeadToAll nested (fun _ => []) a a :=
  Eventually.of_forall fun _ => ⟨rfl, trivial⟩

theorem leadToAll_cons {pass : Nat → Pass α} {rest : Nat → List (Pass α)}
    (hpass : LeadsTo nested pass a b) (hrest : LeadToAll nested rest b c) :
    LeadToAll nested (fun cap => pass cap :: rest cap) a c := by
  filter_upwards [hpass, hrest] with cap hpass hrest
  exact ⟨(runAll_cons hpass.1).trans hrest.1, settlesAll_cons hpass.2 hpass.1 hrest.2⟩

/--
A repetition of passes that descend, or change nothing, leads to a value that they leave unchanged
once its cap is large enough.
-/
theorem exists_leadsTo_fixedPoint [LawfulBEq α] {pass : Nat → Pass α} {P : α → Prop}
    {lt : α → α → Prop} (hlt : WellFounded lt)
    (h : ∀ x, P x → ∃ y, LeadsTo nested pass x y ∧ P y ∧ (y = x ∨ lt y x)) (ha : P a) :
    ∃ b, LeadsTo nested (fun cap => fixedPoint cap (pass cap)) a b ∧
      LeadsTo nested pass b b ∧ P b := by
  have main : ∃ n b, LeadsTo nested pass b b ∧ P b ∧ ∀ᶠ cap in atTop, ∀ left, n < left →
      (∀ done, ∃ k, iterate (pass cap).run left done a = .ok (b, ⟨true, k⟩)) ∧
        EndsWithin (pass cap).run ((pass cap).Settles (nested cap)) left a := by
    induction a using hlt.induction with
    | _ a ih =>
      obtain ⟨b, hb, hPb, rfl | hba⟩ := h a ha
      · refine ⟨0, b, hb, hPb, ?_⟩
        filter_upwards [hb] with cap hcap left hleft
        refine ⟨fun done => ?_, endsWithin_of_fixed hleft hcap.1 BEq.rfl hcap.2⟩
        exact iterate_of_iterated (fun _ _ _ => eq_of_beq) rfl hcap.1 BEq.rfl hleft done
      · obtain ⟨n, c, hc, hPc, hrest⟩ := ih b hba hPb
        refine ⟨n + 1, c, hc, hPc, ?_⟩
        filter_upwards [hb, hc, hrest] with cap hcap hccap hrest left hleft
        obtain ⟨left, rfl⟩ := Nat.exists_eq_add_of_lt (Nat.zero_lt_of_lt hleft)
        rw [Nat.zero_add] at hleft ⊢
        obtain ⟨hiterate, hends⟩ := hrest left (by omega)
        refine ⟨fun done => ?_, hcap.2, fun next hnext => ?_⟩
        · have heq : ¬ (b == a) = true := fun heq =>
            hlt.irrefl.irrefl a (eq_of_beq heq ▸ hba)
          obtain ⟨k, hk⟩ := hiterate (done + 1)
          refine ⟨k, ?_⟩
          simp [iterate, hcap.1, heq, hk]
        · obtain rfl : b = next := Except.ok.inj (hcap.1.symm.trans hnext)
          exact .inr hends
  obtain ⟨n, b, hb, hPb, hmain⟩ := main
  refine ⟨b, ?_, hb, hPb⟩
  filter_upwards [hmain, eventually_gt_atTop n] with cap hcap hn
  obtain ⟨hiterate, hends⟩ := hcap (iterations cap) (lt_of_lt_of_le hn (le_max_left cap 1))
  obtain ⟨k, hk⟩ := hiterate 0
  exact ⟨by rw [run, hk]; rfl, hends⟩

end LeadsTo

end Pass

end SpinBoson
