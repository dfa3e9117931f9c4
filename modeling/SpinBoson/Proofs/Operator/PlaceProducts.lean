import Mathlib.Algebra.BigOperators.Group.List.Basic
import Mathlib.Tactic.Abel
import SpinBoson.Proofs.Operator.Keys
import SpinBoson.Proofs.Phases

/-!
Products of tensor chains by their keys. Multiplying out Pauli operators and moving phases in front
both keep the key of a product, place by place, and the phase in front of it.
-/
namespace SpinBoson

/-! Products of keys -/

namespace FactorKey

def subsystem : FactorKey → Subsystem
  | pauli _ => .qubit
  | word _ => .mode

/-- The product at a place, its phase aside. -/
def mul : FactorKey → FactorKey → FactorKey
  | pauli p, pauli q => pauli (p.mul q).2
  | word l, word r => word (l ++ r)
  | f, _ => f

/-- The phase of the product at a place. -/
def turns : FactorKey → FactorKey → ZMod 4
  | pauli p, pauli q => (p.mul q).1.turns
  | _, _ => 0

theorem subsystem_mul (f g : FactorKey) : (f.mul g).subsystem = f.subsystem := by
  cases f <;> cases g <;> rfl

end FactorKey

namespace TermKey

def signature (k : TermKey) : Signature :=
  k.map FactorKey.subsystem

/-- The product of two keys, place by place, its phase aside. -/
def mul (k l : TermKey) : TermKey :=
  List.zipWith FactorKey.mul k l

/-- The phase of the product of two keys. -/
def turns (k l : TermKey) : ZMod 4 :=
  (List.zipWith FactorKey.turns k l).sum

variable {k k' l l' : TermKey}

theorem signature_append (k l : TermKey) : signature (k ++ l) = k.signature ++ l.signature :=
  List.map_append

theorem length_of_signature (h : k.signature = l.signature) : k.length = l.length := by
  simpa only [signature, List.length_map] using congrArg List.length h

theorem signature_mul (h : k.signature = l.signature) : (k.mul l).signature = k.signature := by
  induction k generalizing l with
  | nil => rfl
  | cons f k ih =>
    cases l with
    | nil => cases h
    | cons g l =>
      have hrest : signature k = signature l := (List.cons.inj h).2
      exact congrArg₂ List.cons (f.subsystem_mul g) (ih hrest)

theorem mul_append (h : k.length = l.length) :
    mul (k ++ k') (l ++ l') = k.mul l ++ k'.mul l' :=
  List.zipWith_append h

theorem turns_append (h : k.length = l.length) :
    turns (k ++ k') (l ++ l') = k.turns l + k'.turns l' := by
  rw [turns, List.zipWith_append h, List.sum_append]
  rfl

end TermKey

namespace Operator

variable {κ ρ : Type} [RealScalar ρ] [Scalar κ ρ]

/--
Whether an operator multiplies out to the chain of a key with so many quarter turns in front of it.
Its coefficients are powers of the imaginary unit.
-/
inductive MultipliesTo : Operator κ → ZMod 4 → TermKey → Prop where
  | qubit (p : Pauli) : MultipliesTo (pauli p) 0 [.pauli p]
  | letter (l : Ladder) : MultipliesTo (mode l) 0 [.word [l]]
  | beside {a b : Operator κ} {q r : ZMod 4} {k l : TermKey} :
      MultipliesTo a q k → MultipliesTo b r l → MultipliesTo (kron a b) (q + r) (k ++ l)
  | times {a b : Operator κ} {q r : ZMod 4} {k l : TermKey} :
      MultipliesTo a q k → MultipliesTo b r l → k.signature = l.signature →
        MultipliesTo (mul a b) (q + r + k.turns l) (k.mul l)
  | turned {z : κ} {a : Operator κ} {q r : ZMod 4} {k : TermKey} :
      (z == turn q) = true → MultipliesTo a r k → MultipliesTo (scale (.lit z) a) (q + r) k

namespace MultipliesTo

variable {a b c : Operator κ} {q : ZMod 4} {k : TermKey}

theorem signature (h : MultipliesTo a q k) : a.signature = .ok k.signature := by
  induction h with
  | qubit | letter => rfl
  | beside _ _ iha ihb =>
    exact signature_kron_iff.mpr ⟨_, _, iha, ihb, (TermKey.signature_append _ _).symm⟩
  | times _ _ hsig iha ihb =>
    rw [TermKey.signature_mul hsig]
    exact (signature_bin_iff (by decide)).mpr ⟨iha, hsig ▸ ihb⟩
  | turned _ _ ih => exact ih

/-- It multiplies out place by place. -/
theorem kronFactors (h : MultipliesTo a q k) :
    ∃ parts : List (ZMod 4 × TermKey),
      List.Forall₂ (fun x p => MultipliesTo x p.1 p.2) a.kronFactors parts ∧
        (parts.map Prod.fst).sum = q ∧ (parts.map Prod.snd).flatten = k := by
  have single {x : Operator κ} {q : ZMod 4} {k : TermKey} (hx : MultipliesTo x q k) :
      ∃ parts : List (ZMod 4 × TermKey),
        List.Forall₂ (fun x p => MultipliesTo x p.1 p.2) [x] parts ∧
          (parts.map Prod.fst).sum = q ∧ (parts.map Prod.snd).flatten = k :=
    ⟨[(q, k)], .cons hx .nil, by simp, by simp⟩
  induction h with
  | qubit p => exact single (.qubit p)
  | letter l => exact single (.letter l)
  | times ha hb hsig => exact single (.times ha hb hsig)
  | turned hz ha => exact single (.turned hz ha)
  | beside _ _ iha ihb =>
    obtain ⟨ps, hps, rfl, rfl⟩ := iha
    obtain ⟨rs, hrs, rfl, rfl⟩ := ihb
    refine ⟨ps ++ rs, ?_, by simp, by simp⟩
    rw [kronFactors_kron]
    exact List.rel_append hps hrs

theorem kronChain {xs : List (Operator κ)} {parts : List (ZMod 4 × TermKey)}
    (h : List.Forall₂ (fun x p => MultipliesTo x p.1 p.2) xs parts) (hc : kronChain? xs = some c) :
    MultipliesTo c (parts.map Prod.fst).sum (parts.map Prod.snd).flatten := by
  cases h with
  | nil => cases hc
  | @cons x p xs ps hx hxs =>
    cases hc
    induction hxs generalizing x p with
    | nil => simpa using hx
    | @cons y r ys rs hy _ ih =>
      have hxy := ih (x := kron x y) (p := (p.1 + r.1, p.2 ++ r.2)) (.beside hx hy)
      simpa [add_assoc] using hxy

/-- The products at the places of two chains come to the product of the chains. -/
theorem places {xs ys : List (Operator κ)} {ps rs : List (ZMod 4 × TermKey)}
    (hxs : List.Forall₂ (fun x p => MultipliesTo x p.1 p.2) xs ps)
    (hys : List.Forall₂ (fun x p => MultipliesTo x p.1 p.2) ys rs) (hlen : xs.length = ys.length)
    (hsame : ∀ p ∈ xs.zip ys, isOnSameSubsystems p.1 p.2 = true) :
    ∃ parts : List (ZMod 4 × TermKey),
      List.Forall₂ (fun x p => MultipliesTo x p.1 p.2) ((xs.zip ys).map fun p => mul p.1 p.2) parts ∧
        (parts.map Prod.fst).sum = (ps.map Prod.fst).sum + (rs.map Prod.fst).sum +
          TermKey.turns (ps.map Prod.snd).flatten (rs.map Prod.snd).flatten ∧
        (parts.map Prod.snd).flatten =
          TermKey.mul (ps.map Prod.snd).flatten (rs.map Prod.snd).flatten := by
  induction hxs generalizing ys rs with
  | nil =>
    cases hys with
    | nil => exact ⟨[], .nil, rfl, rfl⟩
    | cons => cases hlen
  | @cons x p xs ps hx _ ih =>
    cases hys with
    | nil => cases hlen
    | @cons y r ys rs hy hys =>
      rw [List.zip_cons_cons, List.forall_mem_cons] at hsame
      obtain ⟨parts, hparts, hsum, hkey⟩ := ih hys (Nat.succ.inj hlen) hsame.2
      obtain ⟨s, hxs, hys⟩ := isOnSameSubsystems_iff.mp hsame.1
      have hsig : p.2.signature = r.2.signature := by
        rw [← Except.ok.inj (hxs.symm.trans hx.signature), Except.ok.inj (hys.symm.trans hy.signature)]
      have hlength := TermKey.length_of_signature hsig
      refine ⟨(p.1 + r.1 + p.2.turns r.2, p.2.mul r.2) :: parts, .cons (.times hx hy hsig) hparts,
        ?_, ?_⟩
      · simp only [List.map_cons, List.sum_cons, List.flatten_cons, TermKey.turns_append hlength,
          hsum]
        abel
      · simp only [List.map_cons, List.flatten_cons, TermKey.mul_append hlength, hkey]

theorem mulPlaces (h : MultipliesTo (mul a b) q k) (hc : mulPlaces? a b = some c) :
    MultipliesTo c q k := by
  obtain ⟨hlen, -, hsame, hchain⟩ := mulPlaces_eq_some hc
  cases h with
  | times ha hb =>
    obtain ⟨ps, hps, rfl, rfl⟩ := ha.kronFactors
    obtain ⟨rs, hrs, rfl, rfl⟩ := hb.kronFactors
    obtain ⟨parts, hparts, hsum, hkey⟩ := places hps hrs hlen hsame
    rw [← hsum, ← hkey]
    exact kronChain hparts hchain

end MultipliesTo

/-! Steps -/

/-- Whether a step keeps what an operator multiplies out to. -/
def KeepsProduct (a b : Operator κ) : Prop :=
  ∀ q k, MultipliesTo a q k → MultipliesTo b q k

theorem keepsProduct_congruence : Congruence (KeepsProduct (κ := κ)) where
  refl _ _ _ h := h
  trans hab hbc q k h := hbc q k (hab q k h)
  bin ha hb q k h := by
    cases h with
    | beside h h' => exact .beside (ha _ _ h) (hb _ _ h')
    | times h h' hsig => exact .times (ha _ _ h) (hb _ _ h') hsig
  scale ha q k h := by
    cases h with
    | turned hz h => exact .turned hz (ha _ _ h)

variable [ExactPhases κ]

theorem multipliesTo_ofPhase (r : Phase × Pauli) :
    MultipliesTo (ofPhase r : Operator κ) r.1.turns [.pauli r.2] := by
  obtain ⟨phase, p⟩ := r
  have hscale (phase : Phase) :
      MultipliesTo (scale (.lit phase.value) (pauli p) : Operator κ) phase.turns [.pauli p] := by
    have hvalue : ((phase.value : κ) == turn phase.turns) = true := by
      rw [Phase.value_eq_turn]
      exact ExactPhases.turn_beq _
    simpa using MultipliesTo.turned hvalue (.qubit p)
  cases phase with
  | one => exact .qubit p
  | i => exact hscale .i
  | minusI => exact hscale .minusI

theorem keepsProduct_reducePauli (a : Operator κ) : KeepsProduct a a.reducePauli := by
  intro q k h
  unfold reducePauli
  split
  · rename_i p r
    cases h with
    | times hp hr =>
      cases hp
      cases hr
      simpa [TermKey.turns, TermKey.mul, FactorKey.turns, FactorKey.mul] using
        multipliesTo_ofPhase (κ := κ) (p.mul r)
  · rename_i x y _
    cases hc : mulPlaces? x y with
    | none => exact h
    | some c => exact h.mulPlaces hc
  · exact h

omit [ExactPhases κ] in
theorem keepsProduct_liftScale (op : Op) (a b : Operator κ) :
    KeepsProduct (bin op a b) (liftScale op a b) := by
  intro q k h
  unfold liftScale
  split
  · cases h with
    | beside h h' =>
      cases h with
      | turned hz h =>
        rw [add_assoc]
        exact .turned hz (.beside h h')
    | times h h' hsig =>
      cases h with
      | turned hz h =>
        convert MultipliesTo.turned hz (.times h h' hsig) using 1
        abel
  · cases h with
    | beside h h' =>
      cases h' with
      | turned hz h' =>
        rw [add_left_comm]
        exact .turned hz (.beside h h')
    | times h h' hsig =>
      cases h' with
      | turned hz h' =>
        rw [add_left_comm, add_assoc]
        exact .turned hz (.times h h' hsig)
  · exact h

theorem keepsProduct_gatherCoeffs (a : Operator κ) : KeepsProduct a a.gatherCoeffs := by
  unfold gatherCoeffs
  split
  · intro q k h
    cases h with
    | turned hz h =>
      cases h with
      | turned hw h =>
        rw [← add_assoc]
        exact .turned (ExactPhases.mul_beq hz hw) h
  · exact keepsProduct_liftScale .mul _ _
  · exact keepsProduct_liftScale .kron _ _
  · exact keepsProduct_congruence.refl _

/-! What is left -/

namespace MultipliesTo

variable {a : Operator κ} {q : ZMod 4} {k : TermKey}

/-- Its coefficients equal themselves. -/
theorem beq_self (h : MultipliesTo a q k) : (a == a) = true := by
  refine beq_self_of_coeffs ?_
  induction h with
  | qubit | letter => simp [coeffs]
  | beside _ _ iha ihb | times _ _ _ iha ihb => exact List.forall_mem_append.mpr ⟨iha, ihb⟩
  | turned hz _ ih =>
    refine List.forall_mem_cons.mpr ⟨?_, ih⟩
    exact Coeff.lit_beq.mpr ⟨_, rfl, BEq.trans hz (BEq.symm hz)⟩

omit [ExactPhases κ] in
/-- It has no sums. -/
theorem distributed (h : MultipliesTo a q k) :
    (a.AllNodes fun x => x.isDistributed = true) ∧ a.isSum = false := by
  induction h with
  | qubit | letter => exact ⟨rfl, rfl⟩
  | beside _ _ iha ihb | times _ _ _ iha ihb =>
    exact ⟨⟨by simp [isDistributed, iha.2, ihb.2], iha.1, ihb.1⟩, rfl⟩
  | turned _ _ ih => exact ⟨⟨by simp [isDistributed, ih.2], ih.1⟩, rfl⟩

omit [ExactPhases κ] in
theorem word (h : MultipliesTo a q k) (ha : a.IsWord) :
    q = 0 ∧ ∃ letters, k = [.word letters] ∧ a.mulFactors = letters.map Operator.mode := by
  induction ha generalizing q k with
  | mode l =>
    cases h
    exact ⟨rfl, [l], rfl, rfl⟩
  | mul _ _ iha ihb =>
    cases h with
    | times h h' =>
      obtain ⟨rfl, l, rfl, hl⟩ := iha h
      obtain ⟨rfl, r, rfl, hr⟩ := ihb h'
      refine ⟨rfl, l ++ r, rfl, ?_⟩
      rw [mulFactors, operands_bin_self, List.map_append]
      exact congrArg₂ _ hl hr

omit [ExactPhases κ] in
/-- A chain is what it multiplies out to. -/
theorem chain (h : MultipliesTo a q k) (ha : a.IsChain) :
    q = 0 ∧ a.kronFactors.mapM factorKey? = some k := by
  induction ha generalizing q k with
  | pauli p =>
    cases h
    exact ⟨rfl, rfl⟩
  | @word a ha =>
    obtain ⟨rfl, letters, rfl, hletters⟩ := h.word ha
    refine ⟨rfl, ?_⟩
    rw [ha.kronFactors, mapM_eq_some]
    exact .cons (factorKey_of_letters hletters) .nil
  | kron _ _ iha ihb =>
    cases h with
    | beside h h' =>
      obtain ⟨rfl, hl⟩ := iha h
      obtain ⟨rfl, hr⟩ := ihb h'
      refine ⟨rfl, ?_⟩
      rw [kronFactors_kron, mapM_eq_some]
      exact List.rel_append (mapM_eq_some.mp hl) (mapM_eq_some.mp hr)

end MultipliesTo

end Operator

end SpinBoson
