import Mathlib.Tactic.IntervalCases
import SpinBoson.Proofs.Rest

/-!
How a repetition ends, told by the iterations of its step: with the first one that fails or that
leaves its value unchanged, or with the last one that the cap allows. Where it has converged, neither
another repetition nor a larger cap leads any further.
-/
namespace SpinBoson

variable {ε α : Type} {f : α → Except ε α} {m n : Nat} {a b : α}

/-- Whether each of the first `n` iterations of a step changes what the one before it leaves. -/
def ChangesFor (f : α → Except ε α) (n : Nat) (a : α) : Prop :=
  ∀ k < n, iterated f (k + 1) a ≠ iterated f k a

/-- The three ways in which at most `m` iterations of a step end, each with its report. -/
inductive RepetitionEnds (f : α → Except ε α) (m : Nat) (a : α) :
    Except ε (α × Option Convergence) → Prop
  | failed {n : Nat} {b : α} {e : ε} (hn : n < m) (hchanges : ChangesFor f n a)
      (h : iterated f n a = .ok b) (herror : iterated f (n + 1) a = .error e) :
      RepetitionEnds f m a (.error e)
  | converged {n : Nat} {b : α} (hn : n < m) (hchanges : ChangesFor f n a)
      (h : iterated f n a = .ok b) (hsame : iterated f (n + 1) a = .ok b) :
      RepetitionEnds f m a (.ok (b, some ⟨true, n + 1⟩))
  | capped {b : α} (hchanges : ChangesFor f m a) (h : iterated f m a = .ok b) :
      RepetitionEnds f m a (.ok (b, some ⟨false, m⟩))

/-! Iterations from the front and from the back -/

theorem iterated_succ_last (h : iterated f n a = .ok b) : iterated f (n + 1) a = f b := by
  induction n generalizing a with
  | zero =>
    obtain rfl : a = b := Except.ok.inj h
    rw [iterated]
    cases f a <;> rfl
  | succ n ih =>
    obtain ⟨c, hc, hrest⟩ := bind_eq_ok.mp h
    rw [iterated_succ hc, ih hrest]

theorem changesFor_cons (h : f a = .ok b) :
    ChangesFor f (n + 1) a ↔ b ≠ a ∧ ChangesFor f n b := by
  rw [ChangesFor, Nat.forall_lt_succ_left]
  simp only [iterated_succ h]
  exact and_congr_left' (not_congr (Iff.of_eq (Except.ok.injEq b a)))

theorem changesFor_succ : ChangesFor f (n + 1) a ↔
    ChangesFor f n a ∧ iterated f (n + 1) a ≠ iterated f n a :=
  Nat.forall_lt_succ_right

/-- Iterations that all change something go on until one of the ends is reached. -/
theorem exists_end (f : α → Except ε α) (m : Nat) (a : α) : ∃ r, RepetitionEnds f m a r := by
  -- an end below the cap is one for every larger cap, so only the last iteration can be new
  suffices (∃ n < m, ∃ b, ChangesFor f n a ∧ iterated f n a = .ok b ∧
      ((∃ e, f b = .error e) ∨ f b = .ok b)) ∨
      ∃ b, ChangesFor f m a ∧ iterated f m a = .ok b by
    rcases this with ⟨n, hn, b, hchanges, h, ⟨e, he⟩ | hb⟩ | ⟨b, hchanges, h⟩
    · exact ⟨_, .failed hn hchanges h ((iterated_succ_last h).trans he)⟩
    · exact ⟨_, .converged hn hchanges h ((iterated_succ_last h).trans hb)⟩
    · exact ⟨_, .capped hchanges h⟩
  induction m with
  | zero => exact .inr ⟨a, fun _ hk => absurd hk (Nat.not_lt_zero _), rfl⟩
  | succ m ih =>
    rcases ih with ⟨n, hn, hend⟩ | ⟨b, hchanges, h⟩
    · exact .inl ⟨n, Nat.lt_succ_of_lt hn, hend⟩
    · cases hfb : f b with
      | error e => exact .inl ⟨m, Nat.lt_succ_self m, b, hchanges, h, .inl ⟨e, hfb⟩⟩
      | ok c =>
        by_cases hcb : c = b
        · subst hcb
          exact .inl ⟨m, Nat.lt_succ_self m, c, hchanges, h, .inr hfb⟩
        · have hlast := (iterated_succ_last h).trans hfb
          refine .inr ⟨c, changesFor_succ.mpr ⟨hchanges, ?_⟩, hlast⟩
          rw [hlast, h]
          exact fun heq => hcb (Except.ok.inj heq)

/-! Runs -/

section Runs

variable [BEq α] [LawfulBEq α]

/-- A repetition goes on through iterations that all change something. -/
theorem iterate_of_changesFor (hchanges : ChangesFor f n a) (h : iterated f n a = .ok b)
    (left done : Nat) : iterate f (n + left) done a = iterate f left (done + n) b := by
  induction n generalizing a done with
  | zero =>
    obtain rfl : a = b := Except.ok.inj h
    rw [Nat.zero_add, Nat.add_zero]
  | succ n ih =>
    obtain ⟨c, hc, hrest⟩ := bind_eq_ok.mp h
    obtain ⟨hne, hchanges⟩ := (changesFor_cons hc).mp hchanges
    have hbeq : ¬ (c == a) = true := fun heq => hne (eq_of_beq heq)
    calc
      iterate f (n + 1 + left) done a = iterate f (n + left + 1) done a := by
        rw [Nat.add_right_comm]
      _ = iterate f (n + left) (done + 1) c := by simp [iterate, hc, hbeq]
      _ = iterate f left (done + (n + 1)) b := by
        rw [ih hchanges hrest, Nat.add_assoc, Nat.add_comm 1 n]

namespace Pass

variable {pass : Pass α} {cap : Nat} {r : Except Error (α × Option Convergence)}

theorem runWithReport_of_ends (h : RepetitionEnds pass.run (iterations cap) a r) :
    (fixedPoint cap pass).runWithReport a = r := by
  -- the iteration after those that change something decides
  have below {n : Nat} {b : α} (hn : n < iterations cap) (hchanges : ChangesFor pass.run n a)
      (h : iterated pass.run n a = .ok b) : ∃ left,
        iterate pass.run (iterations cap) 0 a = iterate pass.run (left + 1) n b := by
    refine ⟨iterations cap - (n + 1), ?_⟩
    rw [← Nat.zero_add n, ← iterate_of_changesFor hchanges h, Nat.zero_add]
    congr 1
    omega
  rw [runWithReport]
  cases h with
  | failed hn hchanges h herror =>
    obtain ⟨left, hrun⟩ := below hn hchanges h
    rw [iterated_succ_last h] at herror
    rw [hrun, iterate, herror]
    rfl
  | converged hn hchanges h hsame =>
    obtain ⟨left, hrun⟩ := below hn hchanges h
    rw [iterated_succ_last h] at hsame
    rw [hrun, iterate, hsame, ok_bind, if_pos BEq.rfl]
    rfl
  | capped hchanges h =>
    have hrun := iterate_of_changesFor hchanges h 0 0
    rw [Nat.add_zero, Nat.zero_add] at hrun
    rw [hrun]
    rfl

theorem runWithReport_eq_iff :
    (fixedPoint cap pass).runWithReport a = r ↔
      RepetitionEnds pass.run (iterations cap) a r := by
  refine ⟨?_, runWithReport_of_ends⟩
  rintro rfl
  obtain ⟨r, hr⟩ := exists_end pass.run (iterations cap) a
  rwa [runWithReport_of_ends hr]

/--
A repetition ends with the first iteration that fails, or else with the first one that leaves its
value unchanged, or else with its last one. A value it converged to is one that the pass leaves
unchanged: repeating the pass on it takes one iteration, and a larger cap changes nothing.
-/
theorem runWithReport_fixedPoint (pass : Pass α) (cap : Nat) (a : α) :
    (∀ r, (fixedPoint cap pass).runWithReport a = r ↔
      RepetitionEnds pass.run (iterations cap) a r) ∧
    ∀ b n, (fixedPoint cap pass).runWithReport a = .ok (b, some ⟨true, n⟩) →
      pass.run b = .ok b ∧
      (∀ cap', (fixedPoint cap' pass).runWithReport b = .ok (b, some ⟨true, 1⟩)) ∧
      ∀ cap', cap ≤ cap' →
        (fixedPoint cap' pass).runWithReport a = .ok (b, some ⟨true, n⟩) := by
  refine ⟨fun r => runWithReport_eq_iff, fun b n hrun => ?_⟩
  cases runWithReport_eq_iff.mp hrun with
  | converged hn hchanges h hsame =>
    have hfixed := (iterated_succ_last h).symm.trans hsame
    refine ⟨hfixed, fun cap' => ?_, fun cap' hcap => ?_⟩
    · exact runWithReport_of_ends
        (.converged (iterations_pos cap') (fun _ hk => absurd hk (Nat.not_lt_zero _)) rfl
          (iterated_of_fixed hfixed 1))
    · have hle : iterations cap ≤ iterations cap' := max_le_max_right 1 hcap
      exact runWithReport_of_ends (.converged (hn.trans_le hle) hchanges h hsame)

end Pass

end Runs

/-- Counts down to zero. -/
def countdown : Pass Nat :=
  .step "countdown" false fun n => .ok (n - 1)

/-- From three, three iterations change something and the fourth one confirms the end. -/
theorem runWithReport_countdown :
    (Pass.fixedPoint 5 countdown).runWithReport 3 = .ok (0, some ⟨true, 4⟩) ∧
    countdown.run 0 = .ok 0 ∧
    (Pass.fixedPoint 1 countdown).runWithReport 0 = .ok (0, some ⟨true, 1⟩) ∧
    (Pass.fixedPoint 1000 countdown).runWithReport 3 = .ok (0, some ⟨true, 4⟩) := by
  obtain ⟨hends, hconverged⟩ := Pass.runWithReport_fixedPoint countdown 5 3
  have hchanges : ChangesFor countdown.run 3 3 := by
    intro k hk
    interval_cases k <;> exact fun h => absurd (Except.ok.inj h) (by decide)
  have hrun := (hends _).mpr (.converged (by decide) hchanges rfl rfl)
  obtain ⟨hfixed, hagain, hlarger⟩ := hconverged 0 4 hrun
  exact ⟨hrun, hfixed, hagain 1, hlarger 1000 (by decide)⟩

end SpinBoson
