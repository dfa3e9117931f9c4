import Mathlib.Logic.Relation
import Mathlib.Order.Filter.AtTopBot.Basic
import SpinBoson.Proofs.Repetition

/-!
Runs in which repetitions have no cap. Such a run is a relation, since it need not end; where it
ends, the runs with every cap that is large enough do the same.
-/
namespace SpinBoson.Pass

open Filter

variable {α : Type} [BEq α]

/-- Whether a repetition goes from one value on to another one; it stops where two test equal. -/
abbrev GoesOn (next : α → α → Prop) : α → α → Prop :=
  Relation.ReflTransGen fun a b => next a b ∧ ¬ (b == a) = true

mutual

/-- Whether the run of a pass leads from one value to another one if repetitions have no cap. -/
def Reaches : Pass α → α → α → Prop
  | step _ _ f, a, b => f a = .ok b
  | chain _ passes, a, b => ReachesAll passes a b
  | fixedPoint _ pass, a, b =>
    ∃ last, GoesOn pass.Reaches a last ∧ pass.Reaches last b ∧ (b == last) = true

def ReachesAll : List (Pass α) → α → α → Prop
  | [], a, b => a = b
  | pass :: rest, a, b => ∃ c, pass.Reaches a c ∧ ReachesAll rest c b

end

mutual

/-- Whether the run of a pass on a value meets `x` at the start of a step if repetitions have no
cap. -/
def Meets : Pass α → α → α → Prop
  | step _ _ _, a, x => x = a
  | chain _ passes, a, x => MeetsAll passes a x
  | fixedPoint _ pass, a, x => ∃ b, GoesOn pass.Reaches a b ∧ pass.Meets b x

def MeetsAll : List (Pass α) → α → α → Prop
  | [], _, _ => False
  | pass :: rest, a, x => pass.Meets a x ∨ ∃ b, pass.Reaches a b ∧ MeetsAll rest b x

end

mutual

/-- The pass with another cap on all its repetitions. -/
def capped (cap : Nat) : Pass α → Pass α
  | step name isCheck f => step name isCheck f
  | chain name passes => chain name (cappedAll cap passes)
  | fixedPoint _ pass => fixedPoint cap (pass.capped cap)

def cappedAll (cap : Nat) : List (Pass α) → List (Pass α)
  | [] => []
  | pass :: rest => pass.capped cap :: cappedAll cap rest

end

/-! Runs that end by themselves -/

section Settled

variable {nested : String → α → Prop}

/-- A repetition that ends by itself goes through the values that it goes through without a cap. -/
theorem endsWithin_of_goesOn {f : α → Except Error α} {next : α → α → Prop} {inner : α → Prop}
    (hnext : ∀ a b, inner a → next a b → f a = .ok b) {left : Nat} (done : Nat) {a b : α}
    (hset : EndsWithin f inner left a) (h : GoesOn next a b) :
    ∃ left' done', EndsWithin f inner left' b ∧
      iterate f left done a = iterate f left' done' b := by
  induction h using Relation.ReflTransGen.head_induction_on generalizing left done with
  | refl => exact ⟨left, done, hset, rfl⟩
  | head hac _ ih =>
    cases left with
    | zero => exact hset.elim
    | succ left =>
      obtain ⟨hinner, hrest⟩ := hset
      have hrun := hnext _ _ hinner hac.1
      obtain ⟨left', done', hends, heq⟩ := ih (done + 1) ((hrest _ hrun).resolve_left hac.2)
      refine ⟨left', done', hends, Eq.trans ?_ heq⟩
      simp [iterate, hrun, hac.2]

mutual

theorem run_of_reaches : ∀ (pass : Pass α) {a b : α}, pass.Settles nested a → pass.Reaches a b →
    pass.run a = .ok b
  | step _ _ _, _, _, _, h => h
  | chain _ passes, _, _, hset, h => runAll_of_reachesAll passes hset h
  | fixedPoint cap pass, a, b, hset, ⟨last, hgoes, hlast, heq⟩ => by
    obtain ⟨left, done, hends, hrun⟩ :=
      endsWithin_of_goesOn (fun _ _ => run_of_reaches pass) 0 hset hgoes
    cases left with
    | zero => exact hends.elim
    | succ left =>
      have hstep := run_of_reaches pass hends.1 hlast
      rw [run, hrun]
      simp only [iterate, hstep, ok_bind, heq, if_true]
      rfl

theorem runAll_of_reachesAll : ∀ (passes : List (Pass α)) {a b : α},
    SettlesAll nested passes a → ReachesAll passes a b → runAll passes a = .ok b
  | [], _, _, _, h => congrArg _ h
  | pass :: rest, _, _, hset, ⟨_, hc, hb⟩ => by
    have hrun := run_of_reaches pass hset.1 hc
    exact (runAll_cons hrun).trans (runAll_of_reachesAll rest (hset.2 _ hrun) hb)

end

mutual

theorem meets_of_settles {N : α → Prop} : ∀ (pass : Pass α) {a x : α},
    pass.Settles (fun _ => N) a → pass.Meets a x → N x
  | step _ _ _, _, _, hset, h => h ▸ hset
  | chain _ passes, _, _, hset, h => meetsAll_of_settlesAll passes hset h
  | fixedPoint _ pass, _, _, hset, ⟨_, hgoes, hmeets⟩ => by
    obtain ⟨left, -, hends, -⟩ :=
      endsWithin_of_goesOn (fun _ _ => run_of_reaches pass) 0 hset hgoes
    cases left with
    | zero => exact hends.elim
    | succ left => exact meets_of_settles pass hends.1 hmeets

theorem meetsAll_of_settlesAll {N : α → Prop} : ∀ (passes : List (Pass α)) {a x : α},
    SettlesAll (fun _ => N) passes a → MeetsAll passes a x → N x
  | pass :: _, _, _, hset, .inl h => meets_of_settles pass hset.1 h
  | pass :: rest, _, _, hset, .inr ⟨_, hb, h⟩ =>
    meetsAll_of_settlesAll rest (hset.2 _ (run_of_reaches pass hset.1 hb)) h

end

end Settled

/-! Runs with large caps -/

section Capped

variable {N : α → Prop}

/-- A repetition with a cap beyond the number of values that it goes through ends by itself. -/
theorem eventually_iterate {pass : Pass α} {a last b : α} (hgoes : GoesOn pass.Reaches a last)
    (hlast : pass.Reaches last b) (heq : (b == last) = true)
    (hN : ∀ x, (∃ c, GoesOn pass.Reaches a c ∧ pass.Meets c x) → N x)
    (ih : ∀ {a b : α}, (∀ x, pass.Meets a x → N x) → pass.Reaches a b →
      ∀ᶠ cap in atTop, (pass.capped cap).run a = .ok b ∧
        (pass.capped cap).Settles (fun _ => N) a) :
    ∃ n, ∀ᶠ cap in atTop, ∀ left, n < left →
      (∀ done, ∃ c, iterate (pass.capped cap).run left done a = .ok (b, c)) ∧
        EndsWithin (pass.capped cap).run ((pass.capped cap).Settles (fun _ => N)) left a := by
  induction hgoes using Relation.ReflTransGen.head_induction_on with
  | refl =>
    refine ⟨0, ?_⟩
    filter_upwards [ih (fun x hx => hN x ⟨last, .refl, hx⟩) hlast] with cap hcap left hleft
    obtain ⟨left, rfl⟩ := Nat.exists_eq_add_one_of_ne_zero (Nat.ne_of_gt hleft)
    refine ⟨fun done => ⟨⟨true, done + 1⟩, ?_⟩, hcap.2, fun next hnext => .inl ?_⟩
    · simp only [iterate, hcap.1, ok_bind, heq, if_true]
      rfl
    · exact Except.ok.inj (hcap.1.symm.trans hnext) ▸ heq
  | head hac hrest ihrest =>
    rename_i a c
    have hNc : ∀ x, (∃ d, GoesOn pass.Reaches c d ∧ pass.Meets d x) → N x := fun x ⟨d, hd, hx⟩ =>
      hN x ⟨d, hd.head hac, hx⟩
    obtain ⟨n, hn⟩ := ihrest hNc
    refine ⟨n + 1, ?_⟩
    filter_upwards [hn, ih (fun x hx => hN x ⟨a, .refl, hx⟩) hac.1] with cap hcap hstep left hleft
    obtain ⟨left, rfl⟩ := Nat.exists_eq_add_one_of_ne_zero (Nat.ne_of_gt (Nat.zero_lt_of_lt hleft))
    obtain ⟨hiterate, hends⟩ := hcap left (Nat.lt_of_succ_lt_succ hleft)
    refine ⟨fun done => ?_, hstep.2, fun next hnext => .inr ?_⟩
    · obtain ⟨k, hk⟩ := hiterate (done + 1)
      refine ⟨k, ?_⟩
      simp [iterate, hstep.1, hac.2, hk]
    · exact Except.ok.inj (hstep.1.symm.trans hnext) ▸ hends

mutual

theorem eventually_of_reaches : ∀ (pass : Pass α) {a b : α}, (∀ x, pass.Meets a x → N x) →
    pass.Reaches a b →
    ∀ᶠ cap in atTop, (pass.capped cap).run a = .ok b ∧ (pass.capped cap).Settles (fun _ => N) a
  | step _ _ _, a, _, hN, h => .of_forall fun _ => ⟨h, hN a rfl⟩
  | chain _ passes, _, _, hN, h => eventually_of_reachesAll passes hN h
  | fixedPoint _ pass, _, b, hN, ⟨last, hgoes, hlast, heq⟩ => by
    obtain ⟨n, hn⟩ := eventually_iterate hgoes hlast heq hN (eventually_of_reaches pass)
    filter_upwards [hn, eventually_gt_atTop n] with cap hcap hlt
    obtain ⟨hiterate, hends⟩ := hcap (iterations cap) (lt_of_lt_of_le hlt (le_max_left cap 1))
    obtain ⟨k, hk⟩ := hiterate 0
    exact ⟨by rw [capped, run, hk]; rfl, hends⟩

theorem eventually_of_reachesAll : ∀ (passes : List (Pass α)) {a b : α},
    (∀ x, MeetsAll passes a x → N x) → ReachesAll passes a b →
    ∀ᶠ cap in atTop, runAll (cappedAll cap passes) a = .ok b ∧
      SettlesAll (fun _ => N) (cappedAll cap passes) a
  | [], _, _, _, h => .of_forall fun _ => ⟨congrArg _ h, trivial⟩
  | pass :: rest, _, _, hN, ⟨c, hc, hb⟩ => by
    filter_upwards [eventually_of_reaches pass (fun x hx => hN x (.inl hx)) hc,
      eventually_of_reachesAll rest (fun x hx => hN x (.inr ⟨c, hc, hx⟩)) hb] with cap hpass hrest
    exact ⟨(runAll_cons hpass.1).trans hrest.1, settlesAll_cons hpass.2 hpass.1 hrest.2⟩

end

end Capped

/-! Passes that end without a cap -/

/--
Whether a pass without caps leads from values with one property to values with another one, if all
its steps start from values with the property `N`.
-/
def Halts (N : α → Prop) (P : α → Prop) (pass : Pass α) (Q : α → Prop) : Prop :=
  ∀ a, P a → (∀ x, pass.Meets a x → N x) → ∃ b, pass.Reaches a b ∧ Q b

/-- The same for passes that run one after the other. -/
def HaltsAll (N : α → Prop) (P : α → Prop) (passes : List (Pass α)) (Q : α → Prop) : Prop :=
  ∀ a, P a → (∀ x, MeetsAll passes a x → N x) → ∃ b, ReachesAll passes a b ∧ Q b

section Halts

variable {N P Q R : α → Prop}

theorem halts_step {name : String} {isCheck : Bool} {f : α → Except Error α}
    (h : ∀ a, P a → N a → ∃ b, f a = .ok b ∧ Q b) : (step name isCheck f).Halts N P Q :=
  fun a ha hN => h a ha (hN a rfl)

theorem haltsAll_nil (h : ∀ a, P a → Q a) : HaltsAll N P [] Q :=
  fun a ha _ => ⟨a, rfl, h a ha⟩

theorem haltsAll_cons {pass : Pass α} {rest : List (Pass α)} (hpass : pass.Halts N P Q)
    (hrest : HaltsAll N Q rest R) : HaltsAll N P (pass :: rest) R := by
  intro a ha hN
  obtain ⟨b, hb, hQ⟩ := hpass a ha fun x hx => hN x (.inl hx)
  obtain ⟨c, hc, hR⟩ := hrest b hQ fun x hx => hN x (.inr ⟨b, hb, hx⟩)
  exact ⟨c, ⟨b, hb, hc⟩, hR⟩

/-- A repetition halts whose iterations descend unless they change nothing in the eyes of the
test. -/
theorem halts_fixedPoint {cap : Nat} {pass : Pass α} {lt : α → α → Prop} (hlt : WellFounded lt)
    (h : ∀ a, P a → (∀ x, pass.Meets a x → N x) →
      ∃ b, pass.Reaches a b ∧ P b ∧ ((b == a) = true → Q b) ∧ ((b == a) = true ∨ lt b a)) :
    (fixedPoint cap pass).Halts N P Q := by
  intro a ha hN
  induction a using hlt.induction with
  | _ a ih =>
    obtain ⟨b, hb, hPb, hQ, hdescends⟩ := h a ha fun x hx => hN x ⟨a, .refl, hx⟩
    by_cases heq : (b == a) = true
    · exact ⟨b, ⟨a, .refl, hb, heq⟩, hQ heq⟩
    · have hNb : ∀ x, (fixedPoint cap pass).Meets b x → N x := fun x ⟨c, hc, hx⟩ =>
        hN x ⟨c, hc.head ⟨hb, heq⟩, hx⟩
      obtain ⟨c, ⟨last, hgoes, hlast⟩, hQc⟩ := ih b (hdescends.resolve_left heq) hPb hNb
      exact ⟨c, ⟨last, hgoes.head ⟨hb, heq⟩, hlast⟩, hQc⟩

/-- Where a run settles it achieves what it does without caps. -/
theorem Halts.achieves {pass : Pass α} (h : pass.Halts N P Q) :
    pass.Achieves (fun _ => N) P Q := by
  intro a ha hset
  obtain ⟨b, hb, hQ⟩ := h a ha fun _ => meets_of_settles pass hset
  exact ⟨b, run_of_reaches pass hset hb, hQ⟩

end Halts

end SpinBoson.Pass
