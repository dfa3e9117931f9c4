import Mathlib.Data.Prod.Lex
import SpinBoson.Proofs.Canonical.Stages
import SpinBoson.Proofs.ClosedForms
import SpinBoson.Proofs.Rest

/-!
Every repetition of walks on the way to the canonical form comes to rest on every operator. Each
walk lowers a measure wherever it changes something, and raises none that counts for more.
-/
namespace SpinBoson.Canonical

open Operator Pass

variable {κ : Type}

/-! Measures of operators -/

/-- How much is left to distribute, then to put in normal order, then to gather. -/
def orderingMeasure (a : Operator κ) : Nat ×ₗ Nat ×ₗ Nat :=
  toLex (distribution.weigh a, toLex (lettersInOrder.disorder a, gathering.weigh a))

/-- A weight that a round lowers first, and then how much is left to gather. -/
def roundMeasure (w : Weighing) (a : Operator κ) : Nat ×ₗ Nat :=
  toLex (w.weigh a, gathering.weigh a)

/-- Whether a measure is the same for operators that test equal. -/
def Tested [BEq κ] {γ : Type} (μ : Operator κ → γ) : Prop :=
  ∀ a b, (b == a) = true → μ b = μ a

section Tested

variable [BEq κ]

theorem tested_weigh (w : Weighing) : Tested (w.weigh (κ := κ)) :=
  fun _ _ h => Weighing.weigh_of_beq h

theorem tested_disorder (w : Arrangement) : Tested (w.disorder (κ := κ)) := by
  intro a b h
  rw [← (w.skeleton_eq b).2, skeleton_of_beq h, (w.skeleton_eq a).2]

theorem tested_roundMeasure (w : Weighing) : Tested (roundMeasure w (κ := κ)) := by
  intro a b h
  rw [roundMeasure, roundMeasure, tested_weigh w a b h, tested_weigh gathering a b h]

theorem tested_orderingMeasure : Tested (orderingMeasure (κ := κ)) := by
  intro a b h
  rw [orderingMeasure, orderingMeasure, tested_weigh distribution a b h,
    tested_disorder lettersInOrder a b h, tested_weigh gathering a b h]

section Measured

variable {γ : Type} [Preorder γ] {μ : Operator κ → γ} {pass : Pass (Operator κ)}
  {f : Operator κ → Operator κ}

/-- Where a pass changes something the measure differs, and so does what the test sees. -/
theorem steady_of_measure (hμ : Tested μ) (hrun : ∀ a, pass.run a = .ok (f a))
    (hf : ∀ a, f a = a ∨ μ (f a) < μ a) : Steady pass.run := by
  intro a b hb hbeq
  obtain rfl : f a = b := Except.ok.inj ((hrun a).symm.trans hb)
  rcases hf a with heq | hlt
  · exact heq
  · exact absurd hlt (hμ a _ hbeq ▸ lt_irrefl _)

/-- A pass that lowers a measure wherever it changes something comes to rest. -/
theorem comesToRest_of_measure [ReflBEq κ] [WellFoundedLT γ] (hμ : Tested μ)
    (hrun : ∀ a, pass.run a = .ok (f a)) (hf : ∀ a, f a = a ∨ μ (f a) < μ a) (a : Operator κ) :
    pass.ComesToRest a :=
  comesToRest_of_wellFounded (InvImage.wf μ wellFounded_lt) (fun x => ⟨f x, hrun x, hf x⟩)
    (steady_of_measure hμ hrun hf) a

/-- It ends with a value that it leaves unchanged and that has what its walks keep. -/
theorem exists_comesToRestAt_of_measure [WellFoundedLT γ] {P : Operator κ → Prop} (hμ : Tested μ)
    (hrun : ∀ a, pass.run a = .ok (f a)) (hf : ∀ a, f a = a ∨ μ (f a) < μ a)
    (hP : ∀ a, P a → P (f a)) (hself : ∀ a, P a → (a == a) = true) {a : Operator κ} (ha : P a) :
    ∃ b, pass.ComesToRestAt a b ∧ P b ∧ f b = b := by
  obtain ⟨b, hb, hPb⟩ := exists_comesToRestAt (InvImage.wf μ wellFounded_lt)
    (fun x hx => ⟨f x, hrun x, hP x hx, hf x⟩) hself (steady_of_measure hμ hrun hf) ha
  have ⟨_, _, hfixed, _⟩ := hb
  exact ⟨b, hb, hPb, Except.ok.inj ((hrun b).symm.trans hfixed)⟩

end Measured

end Tested

variable {ρ : Type} [RealScalar ρ] [Scalar κ ρ]

/-- A walk that brings operands closer to their order ends where it finds nothing to bring closer. -/
theorem exists_comesToRestAt_of_closer {w : Arrangement} {name : String}
    {f : Operator κ → Operator κ} {P : Operator κ → Prop} (hf : ∀ a, f a = a ∨ w.Closer (f a) a)
    (hP : ∀ a, P a → P (a.rewrite f)) (hself : ∀ a, P a → (a == a) = true) {a : Operator κ}
    (ha : P a) : ∃ b, (Pass.ofRule .post (Rule.ofOperator name fun a => .ok (f a) :
        Rule κ (Except Error)) : Pass (Operator κ)).ComesToRestAt a b ∧
      P b ∧ b.AllNodes fun x => f x = x := by
  have hlower (x : Operator κ) : x.rewrite f = x ∨ w.disorder (x.rewrite f) < w.disorder x :=
    (rewrite_eq_or_lt w.descent hf x).imp And.left And.right
  obtain ⟨b, hrest, hb, hfixed⟩ := exists_comesToRestAt_of_measure (tested_disorder w)
    (run_ofOperator name f) hlower hP hself ha
  have hbeq : (b.rewrite f == b) = true := hfixed.symm ▸ hself b hb
  exact ⟨b, hrest, hb, Arrangement.fixed_of_rewrite hf hbeq⟩

/-! Rounds -/

/-- A round of a walk that lowers a weight and of gathering changes nothing or lowers the measure. -/
theorem round_lower {w : Weighing} (hw : w.Strict) {f : Operator κ → Operator κ}
    (hf : ∀ a, f a = a ∨ w.weigh (f a) < w.weigh a)
    (hgather : ∀ a : Operator κ, w.weigh a.gatherCoeffs ≤ w.weigh a) (a : Operator κ) :
    (a.rewrite f).rewrite gatherCoeffs = a ∨
      roundMeasure w ((a.rewrite f).rewrite gatherCoeffs) < roundMeasure w a := by
  have hle : w.weigh ((a.rewrite f).rewrite gatherCoeffs) ≤ w.weigh (a.rewrite f) :=
    rewrite_related hw.congruence hgather (a.rewrite f)
  rcases rewrite_eq_or_lt hw.descent hf a with ⟨heq, -⟩ | hlt
  · rw [heq] at hle ⊢
    rcases rewrite_gatherCoeffs_lighter a with ⟨hsame, -⟩ | hlighter
    · exact .inl hsame
    · rcases hle.lt_or_eq with hless | hsame
      · exact .inr (Prod.Lex.toLex_lt_toLex.mpr (.inl hless))
      · exact .inr (Prod.Lex.toLex_lt_toLex.mpr (.inr ⟨hsame, hlighter⟩))
  · exact .inr (Prod.Lex.toLex_lt_toLex.mpr (.inl (lt_of_le_of_lt hle hlt)))

/-! Putting letters in order -/

/-- Whether two operators have the same operands in the same disorder. -/
def SameDisorder (w : Arrangement) (a b : Operator κ) : Prop :=
  w.ranks b = w.ranks a ∧ w.disorder b = w.disorder a

omit [RealScalar ρ] [Scalar κ ρ] in
theorem sameDisorder_congruence (w : Arrangement) : Congruence (SameDisorder (κ := κ) w) where
  refl _ := ⟨rfl, rfl⟩
  trans h h' := ⟨h'.1.trans h.1, h'.2.trans h.2⟩
  bin {op a a' b b'} ha hb := by
    simp only [SameDisorder, Arrangement.ranks, Arrangement.disorder, ha.1, ha.2, hb.1, hb.2,
      and_self]
  scale h := h

theorem sameDisorder_liftScale (w : Arrangement) (op : Op) (a b : Operator κ) :
    SameDisorder w (bin op a b) (liftScale op a b) := by
  unfold liftScale
  split <;> exact ⟨rfl, rfl⟩

theorem sameDisorder_gatherCoeffs (w : Arrangement) (a : Operator κ) :
    SameDisorder w a a.gatherCoeffs := by
  unfold gatherCoeffs
  split
  · exact ⟨rfl, rfl⟩
  · exact sameDisorder_liftScale w .mul _ _
  · exact sameDisorder_liftScale w .kron _ _
  · exact ⟨rfl, rfl⟩

/-- Reordering a product changes no weight. -/
theorem normalOrder_eq_distribution (a : Operator κ) :
    distribution.weigh a.normalOrder = distribution.weigh a := by
  unfold normalOrder
  split
  · simp only [distribution_mul, Nat.mul_assoc]
  · split
    · simp only [distribution_mul, Nat.mul_assoc]
      rw [Nat.mul_comm (distribution.weigh (.mode _))]
    · rfl
  · split
    · simp only [distribution_mul, Nat.mul_comm]
    · rfl
  · rfl

theorem ordering_lower (a : Operator κ) :
    ((a.rewrite normalOrder).rewrite distribute).rewrite gatherCoeffs = a ∨
      orderingMeasure (((a.rewrite normalOrder).rewrite distribute).rewrite gatherCoeffs) <
        orderingMeasure a := by
  have hstrict := distribution_strict
  have hordered : distribution.weigh (a.rewrite normalOrder) ≤ distribution.weigh a :=
    rewrite_related hstrict.congruence (fun x => (normalOrder_eq_distribution x).le) a
  have hgathered (x : Operator κ) : distribution.weigh (x.rewrite gatherCoeffs) ≤
      distribution.weigh x := rewrite_related hstrict.congruence gatherCoeffs_le_distribution x
  rcases rewrite_eq_or_lt hstrict.descent distribute_lighter (a.rewrite normalOrder) with
    ⟨hsame, -⟩ | hlt
  · -- nothing is distributed, so either a letter moves or coefficients are gathered
    rw [hsame]
    have hle := (hgathered (a.rewrite normalOrder)).trans hordered
    have hdisorder (x : Operator κ) :
        lettersInOrder.disorder (x.rewrite gatherCoeffs) = lettersInOrder.disorder x :=
      (rewrite_related (sameDisorder_congruence lettersInOrder)
        (sameDisorder_gatherCoeffs lettersInOrder) x).2
    rcases hle.lt_or_eq with hless | heq
    · exact .inr (Prod.Lex.toLex_lt_toLex.mpr (.inl hless))
    rcases rewrite_eq_or_lt lettersInOrder.descent normalOrder_closer a with ⟨hkept, -⟩ | hcloser
    · rw [hkept] at heq ⊢
      rcases rewrite_gatherCoeffs_lighter a with ⟨hall, -⟩ | hlighter
      · exact .inl hall
      · refine .inr (Prod.Lex.toLex_lt_toLex.mpr (.inr ⟨heq, ?_⟩))
        exact Prod.Lex.toLex_lt_toLex.mpr (.inr ⟨hdisorder a, hlighter⟩)
    · refine .inr (Prod.Lex.toLex_lt_toLex.mpr (.inr ⟨heq, ?_⟩))
      exact Prod.Lex.toLex_lt_toLex.mpr (.inl (by simpa only [hdisorder] using hcloser.2))
  · refine .inr (Prod.Lex.toLex_lt_toLex.mpr (.inl ?_))
    exact lt_of_le_of_lt (hgathered _) (lt_of_lt_of_le hlt hordered)

theorem run_ordering (a : Operator κ) :
    (Pass.chain "normal order"
      [.ofRule .post (normalOrderRule (κ := κ)), .ofRule .post (distributeRule (κ := κ)),
        .ofRule .post (gatherRule (κ := κ))] : Pass (Operator κ)).run a =
      .ok (((a.rewrite normalOrder).rewrite distribute).rewrite gatherCoeffs) :=
  (runAll_cons (run_ofOperator _ normalOrder a)).trans
    (run_round "" _ _ distribute gatherCoeffs (a.rewrite normalOrder))

/-! Gathering qubits and leaving out identities -/

omit [RealScalar ρ] [Scalar κ ρ] in
theorem gatherQubits_lower (a : Operator κ) : a.rewrite gatherQubits = a ∨
    qubitsFirst.disorder (a.rewrite gatherQubits) < qubitsFirst.disorder a :=
  (rewrite_eq_or_lt qubitsFirst.descent gatherQubits_closer a).imp And.left And.right

omit [RealScalar ρ] [Scalar κ ρ] in
theorem pruneIdentity_lighter (a : Operator κ) :
    a.pruneIdentity = a ∨ gathering.weigh a.pruneIdentity < gathering.weigh a := by
  have hmul (x y : Operator κ) :
      gathering.weigh (mul x y) = 2 * (gathering.weigh x + gathering.weigh y) := rfl
  unfold pruneIdentity
  split
  · refine .inr ?_
    rw [hmul]
    have := gathering_strict.weigh_pos (mode .identity : Operator κ)
    omega
  · refine .inr ?_
    rw [hmul]
    have := gathering_strict.weigh_pos (mode .identity : Operator κ)
    omega
  · exact .inl rfl

theorem prune_lower (a : Operator κ) : a.rewrite pruneIdentity = a ∨
    gathering.weigh (a.rewrite pruneIdentity) < gathering.weigh a :=
  (rewrite_eq_or_lt gathering_strict.descent pruneIdentity_lighter a).imp And.left id

/-! The stages -/

/--
Repeating each of the walks with which operators are distributed, multiplied out, arranged, put in
normal order and pruned comes to rest on every operator, if literals equal themselves.
-/
theorem stages_comeToRest [ReflBEq κ] (a : Operator κ) :
    (Pass.chain "distribute"
      [.ofRule .post (distributeRule (κ := κ)), .ofRule .post (gatherRule (κ := κ))] :
        Pass (Operator κ)).ComesToRest a ∧
    (Pass.chain "pauli algebra"
      [.ofRule .post (pauliRule (κ := κ)), .ofRule .post (gatherRule (κ := κ))] :
        Pass (Operator κ)).ComesToRest a ∧
    (Pass.ofRule .post (gatherQubitsRule (κ := κ)) : Pass (Operator κ)).ComesToRest a ∧
    (Pass.chain "normal order"
      [.ofRule .post (normalOrderRule (κ := κ)), .ofRule .post (distributeRule (κ := κ)),
        .ofRule .post (gatherRule (κ := κ))] : Pass (Operator κ)).ComesToRest a ∧
    (Pass.ofRule .post (pruneRule (κ := κ)) : Pass (Operator κ)).ComesToRest a := by
  refine ⟨?_, ?_, ?_, ?_, ?_⟩
  · exact comesToRest_of_measure (tested_roundMeasure distribution)
      (run_round _ _ _ distribute gatherCoeffs)
      (round_lower distribution_strict distribute_lighter gatherCoeffs_le_distribution) a
  · exact comesToRest_of_measure (tested_roundMeasure reduction)
      (run_round _ _ _ reducePauli gatherCoeffs)
      (round_lower reduction_strict reducePauli_lighter gatherCoeffs_le_reduction) a
  · exact comesToRest_of_measure (tested_disorder qubitsFirst) (run_ofOperator _ gatherQubits)
      gatherQubits_lower a
  · exact comesToRest_of_measure tested_orderingMeasure run_ordering ordering_lower a
  · exact comesToRest_of_measure (tested_weigh gathering) (run_ofOperator _ pruneIdentity)
      prune_lower a

/-- Distributing a product of a sum with a number in it comes to rest. -/
theorem stages_comeToRest_sum :
    (Pass.chain "distribute" [.ofRule .post (distributeRule (κ := ClosedNumber)),
      .ofRule .post (gatherRule (κ := ClosedNumber))] : Pass (Operator ClosedNumber)).ComesToRest
        (mul (add (spin (.pauli .x)) (scale (.lit 1) (spin (.pauli .y)))) (spin (.pauli .z))) :=
  (stages_comeToRest _).1

end SpinBoson.Canonical
