import Mathlib.Algebra.BigOperators.Group.List.Basic
import Mathlib.Algebra.Ring.Hom.Defs
import SpinBoson.Proofs.Coeff.Groups

/-!
Readings of coefficients in a commutative semiring: sums and products mean sums and products, and
all other coefficients may mean anything. Sorting and collecting keep what a coefficient means, and
so does distributing at a sum or product, over exact scalars and with the tolerance zero.
-/
namespace SpinBoson.Coeff

variable {κ ρ R : Type} [RealScalar ρ] [Scalar κ ρ]

/-! Distributing at a sum or product -/

theorem distribute_add (a b : Coeff κ) :
    (add a b).distribute = add a b ∨
      ∃ x y, a = lit x ∧ b = lit y ∧ (add a b).distribute = lit (x + y) := by
  rw [distribute.eq_def]
  split <;> simp_all

theorem distribute_mul (a b : Coeff κ) :
    (mul a b).distribute = mul a b ∨
      (∃ x y, a = lit x ∧ b = lit y ∧ (mul a b).distribute = lit (x * y)) ∨
      (∃ u v, a = add u v ∧ (mul a b).distribute = add (mul u b) (mul v b)) ∨
      ∃ u v, b = add u v ∧ (mul a b).distribute = add (mul a u) (mul a v) := by
  rw [distribute.eq_def]
  split <;> simp_all

/-! Chains of sums and products -/

variable [CommSemiring R]

/-- The value of a chain from the values of its operands. -/
def Op.total (op : Op) (xs : List R) : R :=
  match op with
  | .mul => xs.prod
  | _ => xs.sum

theorem Op.total_singleton (op : Op) (x : R) : op.total [x] = x := by
  cases op <;> simp [total]

theorem Op.total_cons (op : Op) (x : R) (xs : List R) :
    op.total (x :: xs) = op.total [x, op.total xs] := by
  cases op <;> simp [total]

theorem Op.total_append (op : Op) (xs ys : List R) :
    op.total (xs ++ ys) = op.total [op.total xs, op.total ys] := by
  cases op <;> simp [total]

theorem Op.total_perm {op : Op} {xs ys : List R} (h : xs.Perm ys) : op.total xs = op.total ys := by
  cases op with
  | mul => exact h.prod_eq
  | _ => exact h.sum_eq

variable [ExactRing κ]

/-- What coefficients mean, where they have a meaning. -/
structure Reading (κ R : Type) {ρ : Type} [RealScalar ρ] [Scalar κ ρ] [ExactRing κ]
    [CommSemiring R] where
  Defined : Coeff κ → Prop
  number : Coeff κ → R
  /-- What literals mean. -/
  scalar : κ →+* R
  defined_lit : ∀ z, Defined (lit z)
  number_lit : ∀ z, number (lit z) = scalar z
  defined_chain : ∀ {op : Op} {a b : Coeff κ}, op.IsChain →
    (Defined (bin op a b) ↔ Defined a ∧ Defined b)
  number_chain : ∀ {op : Op} {a b : Coeff κ}, op.IsChain → Defined a → Defined b →
    number (bin op a b) = op.total [number a, number b]

namespace Reading

variable (r : Reading κ R)

/-- The second coefficient means what the first one means wherever that has a meaning. -/
def Keeps (e e' : Coeff κ) : Prop :=
  r.Defined e → r.Defined e' ∧ r.number e' = r.number e

variable {r}

theorem Keeps.refl (e : Coeff κ) : r.Keeps e e :=
  fun h => ⟨h, rfl⟩

theorem Keeps.trans {a b c : Coeff κ} (hab : r.Keeps a b) (hbc : r.Keeps b c) : r.Keeps a c := by
  intro ha
  obtain ⟨hb, hnum⟩ := hab ha
  obtain ⟨hc, hnum'⟩ := hbc hb
  exact ⟨hc, hnum'.trans hnum⟩

theorem Keeps.chain {op : Op} (hop : op.IsChain) {a a' b b' : Coeff κ} (ha : r.Keeps a a')
    (hb : r.Keeps b b') : r.Keeps (bin op a b) (bin op a' b') := by
  intro h
  obtain ⟨hda, hdb⟩ := (r.defined_chain hop).mp h
  obtain ⟨hda', hna⟩ := ha hda
  obtain ⟨hdb', hnb⟩ := hb hdb
  refine ⟨(r.defined_chain hop).mpr ⟨hda', hdb'⟩, ?_⟩
  rw [r.number_chain hop hda' hdb', r.number_chain hop hda hdb, hna, hnb]

theorem defined_add {a b : Coeff κ} : r.Defined (add a b) ↔ r.Defined a ∧ r.Defined b :=
  r.defined_chain (.inl rfl)

theorem defined_mul {a b : Coeff κ} : r.Defined (mul a b) ↔ r.Defined a ∧ r.Defined b :=
  r.defined_chain (.inr rfl)

theorem number_add {a b : Coeff κ} (ha : r.Defined a) (hb : r.Defined b) :
    r.number (add a b) = r.number a + r.number b := by
  rw [r.number_chain (.inl rfl) ha hb]
  exact List.sum_pair

theorem number_mul {a b : Coeff κ} (ha : r.Defined a) (hb : r.Defined b) :
    r.number (mul a b) = r.number a * r.number b := by
  rw [r.number_chain (.inr rfl) ha hb]
  exact List.prod_pair

/-! Distributing -/

section Distributing

variable (r)

theorem keeps_mul_add (u v b : Coeff κ) :
    r.Keeps (mul (add u v) b) (add (mul u b) (mul v b)) := by
  intro h
  obtain ⟨huv, hb⟩ := defined_mul.mp h
  obtain ⟨hu, hv⟩ := defined_add.mp huv
  have hub := defined_mul.mpr ⟨hu, hb⟩
  have hvb := defined_mul.mpr ⟨hv, hb⟩
  refine ⟨defined_add.mpr ⟨hub, hvb⟩, ?_⟩
  rw [number_add hub hvb, number_mul hu hb, number_mul hv hb, number_mul huv hb, number_add hu hv,
    add_mul]

theorem keeps_mul_comm (a b : Coeff κ) : r.Keeps (mul a b) (mul b a) := by
  intro h
  obtain ⟨ha, hb⟩ := defined_mul.mp h
  refine ⟨defined_mul.mpr ⟨hb, ha⟩, ?_⟩
  rw [number_mul ha hb, number_mul hb ha, mul_comm]

theorem keeps_add_mul (a u v : Coeff κ) :
    r.Keeps (mul a (add u v)) (add (mul a u) (mul a v)) :=
  (r.keeps_mul_comm _ _).trans ((r.keeps_mul_add _ _ _).trans
    (Keeps.chain (.inl rfl) (r.keeps_mul_comm _ _) (r.keeps_mul_comm _ _)))

theorem keeps_add_literals (x y : κ) : r.Keeps (add (lit x) (lit y)) (lit (x + y)) := by
  intro _
  refine ⟨r.defined_lit _, ?_⟩
  rw [number_add (r.defined_lit _) (r.defined_lit _), r.number_lit, r.number_lit, r.number_lit]
  exact map_add r.scalar x y

theorem keeps_mul_literals (x y : κ) : r.Keeps (mul (lit x) (lit y)) (lit (x * y)) := by
  intro _
  refine ⟨r.defined_lit _, ?_⟩
  rw [number_mul (r.defined_lit _) (r.defined_lit _), r.number_lit, r.number_lit, r.number_lit]
  exact map_mul r.scalar x y

/-- Distributing keeps what a sum or product means. -/
theorem keeps_distribute_chain {op : Op} (hop : op.IsChain) (a b : Coeff κ) :
    r.Keeps (bin op a b) (bin op a b).distribute := by
  rcases hop with rfl | rfl
  · rcases distribute_add a b with h | ⟨x, y, rfl, rfl, h⟩ <;> rw [h]
    · exact .refl _
    · exact r.keeps_add_literals x y
  · rcases distribute_mul a b with h | ⟨x, y, rfl, rfl, h⟩ | ⟨u, v, rfl, h⟩ | ⟨u, v, rfl, h⟩ <;> rw [h]
    · exact .refl _
    · exact r.keeps_mul_literals x y
    · exact r.keeps_mul_add u v b
    · exact r.keeps_add_mul a u v

end Distributing

/-! Operands -/

theorem defined_iff_operands {op : Op} (hop : op.IsChain) {e : Coeff κ} :
    r.Defined e ↔ ∀ t ∈ e.operands op, r.Defined t := by
  induction e using operands_induction op with
  | single e he => rw [he, List.forall_mem_singleton]
  | bin a b iha ihb =>
    rw [r.defined_chain hop, iha, ihb, operands_bin_self, List.forall_mem_append]

theorem number_eq_total {op : Op} (hop : op.IsChain) {e : Coeff κ} (h : r.Defined e) :
    r.number e = op.total ((e.operands op).map r.number) := by
  induction e using operands_induction op with
  | single e he => rw [he, List.map_singleton, Op.total_singleton]
  | bin a b iha ihb =>
    obtain ⟨ha, hb⟩ := (r.defined_chain hop).mp h
    rw [r.number_chain hop ha hb, iha ha, ihb hb, operands_bin_self, List.map_append,
      ← Op.total_append]

theorem leftNested_number {op : Op} (hop : op.IsChain) {es : List (Coeff κ)} {e : Coeff κ}
    (h : leftNested? (bin op) es = some e) (hes : ∀ t ∈ es, r.Defined t) :
    r.Defined e ∧ r.number e = op.total (es.map r.number) := by
  induction h using leftNested?_induction with
  | single e => exact ⟨hes e (List.mem_singleton_self e), (Op.total_singleton op _).symm⟩
  | append es e t _ ih =>
    rw [List.forall_mem_append, List.forall_mem_singleton] at hes
    obtain ⟨he, hn⟩ := ih hes.1
    refine ⟨(r.defined_chain hop).mpr ⟨he, hes.2⟩, ?_⟩
    rw [r.number_chain hop he hes.2, hn, List.map_append, Op.total_append, List.map_singleton,
      Op.total_singleton]

theorem keeps_unlessEqual {e e' : Coeff κ} (h : r.Keeps e e') : r.Keeps e (unlessEqual e e') := by
  unfold unlessEqual
  split
  · exact .refl _
  · exact h

/-! Sorting -/

section Sorting

variable [OrderKey κ]

variable (r) in
theorem keeps_sorted {op : Op} (hop : op.IsChain) (e : Coeff κ) :
    r.Keeps e ((leftNested? (bin op) (sortOperands (e.operands op))).getD e) := by
  intro h
  have hperm := sortOperands_perm (e.operands op)
  cases hs : leftNested? (bin op) (sortOperands (e.operands op)) with
  | none => exact ⟨h, rfl⟩
  | some e' =>
    have hes : ∀ t ∈ sortOperands (e.operands op), r.Defined t :=
      fun t ht => (defined_iff_operands hop).mp h t (hperm.mem_iff.mp ht)
    obtain ⟨hd, hn⟩ := leftNested_number hop hs hes
    exact ⟨hd, by rw [number_eq_total hop h, ← Op.total_perm (hperm.map _)]; exact hn⟩

variable (r) in
theorem keeps_sortChain (e : Coeff κ) : r.Keeps e e.sortChain := by
  unfold sortChain
  split
  · exact keeps_unlessEqual (r.keeps_sorted (.inl rfl) _)
  · exact keeps_unlessEqual (r.keeps_sorted (.inr rfl) _)
  · exact .refl _

end Sorting

/-! Collecting -/

variable (r) in
/-- What a number times factors means. -/
def ofTerm (t : Monomial κ) : R :=
  r.scalar t.1 * (t.2.map r.number).prod

variable (r) in
/-- Whether all factors have a meaning. -/
def DefinedTerm (t : Monomial κ) : Prop :=
  ∀ e ∈ t.2, r.Defined e

/-- Literal factors and the others, multiplied apart. -/
theorem prod_split_literals (es : List (Coeff κ)) :
    (es.map r.number).prod = r.scalar (es.filterMap literal?).prod *
      ((es.filter fun e => e.literal?.isNone).map r.number).prod := by
  induction es with
  | nil => simp
  | cons e es ih =>
    cases e with
    | lit z =>
      simp only [List.map_cons, List.prod_cons, List.filterMap_cons, literal?, ih, r.number_lit,
        List.filter_cons, Option.isNone_some, Bool.false_eq_true, if_false, map_mul, mul_assoc]
    | _ =>
      simp only [List.map_cons, List.prod_cons, List.filterMap_cons, literal?, ih,
        List.filter_cons, Option.isNone_none, if_true]
      rw [mul_left_comm]

theorem monomial_number {e : Coeff κ} (h : r.Defined e) :
    r.DefinedTerm e.monomial ∧ r.ofTerm e.monomial = r.number e := by
  constructor
  · intro f hf
    exact (defined_iff_operands (.inr rfl)).mp h f (List.mem_of_mem_filter hf)
  · rw [number_eq_total (.inr rfl) h]
    change _ = (e.factors.map r.number).prod
    rw [prod_split_literals, List.prod_eq_foldl]
    rfl

theorem ofMonomial_number {t : Monomial κ} (h : r.DefinedTerm t) :
    r.Defined (ofMonomial t) ∧ r.number (ofMonomial t) = r.ofTerm t := by
  rcases leftNested_ofMonomial t with ⟨hone, hnest⟩ | hnest
  · obtain ⟨hd, hn⟩ := leftNested_number (.inr rfl) hnest h
    exact ⟨hd, hn.trans (by simp [ofTerm, eq_of_beq hone, Op.total])⟩
  · have hall : ∀ e ∈ lit t.1 :: t.2, r.Defined e :=
      List.forall_mem_cons.mpr ⟨r.defined_lit t.1, h⟩
    obtain ⟨hd, hn⟩ := leftNested_number (.inr rfl) hnest hall
    exact ⟨hd, hn.trans (by simp [ofTerm, r.number_lit, Op.total])⟩

section Groups

variable (r) in
/-- What groups add up to. -/
def total (g : Groups κ) : R :=
  (g.members.toList.map r.ofTerm).sum

variable (r) in
/-- Whether the factors of all groups have a meaning. -/
def DefinedGroups (g : Groups κ) : Prop :=
  ∀ t ∈ g.members.toList, r.DefinedTerm t

variable [OrderKey κ]

theorem insert_total (g : Groups κ) (t : Monomial κ) :
    r.total (g.insert t) = r.total g + r.ofTerm t := by
  unfold total
  rcases g.insert_members t with ⟨before, m, after, hg, heq, hinsert⟩ | ⟨-, hinsert⟩
  · have hsum : r.ofTerm (m.1 + t.1, m.2) = r.ofTerm m + r.ofTerm t := by
      rw [ofTerm, ofTerm, ofTerm, eq_of_beq heq, ← add_mul]
      exact congrArg (· * _) (map_add r.scalar m.1 t.1)
    rw [hinsert, hg]
    simp only [List.map_append, List.map_cons, List.sum_append, List.sum_cons, hsum]
    ring
  · rw [hinsert, List.map_append, List.sum_append, List.map_singleton, List.sum_singleton]

theorem ofMonomials_total (ts : List (Monomial κ)) :
    r.total (Groups.ofMonomials ts) = (ts.map r.ofTerm).sum := by
  induction ts using List.reverseRecOn with
  | nil => rfl
  | append_singleton ts t ih =>
    rw [Groups.ofMonomials_append_singleton, insert_total, ih, List.map_append, List.sum_append,
      List.map_singleton, List.sum_singleton]

theorem ofMonomials_defined {ts : List (Monomial κ)} (h : ∀ t ∈ ts, r.DefinedTerm t) :
    r.DefinedGroups (Groups.ofMonomials ts) := by
  intro m hm
  obtain ⟨t, ht, heq⟩ := Groups.mem_of_mem_ofMonomials hm
  exact fun e he => h t ht e (heq ▸ he)

theorem groupTerms_number {e : Coeff κ} (h : r.Defined e) :
    (∀ t ∈ e.groupTerms, r.DefinedTerm t) ∧ (e.groupTerms.map r.ofTerm).sum = r.number e := by
  have hterms := (defined_iff_operands (.inl rfl)).mp h
  have hmonomials : ∀ t ∈ e.terms.map monomial, r.DefinedTerm t := by
    intro t ht
    obtain ⟨f, hf, rfl⟩ := List.mem_map.mp ht
    exact (monomial_number (hterms f hf)).1
  refine ⟨ofMonomials_defined hmonomials, (ofMonomials_total _).trans ?_⟩
  rw [number_eq_total (.inl rfl) h, List.map_map]
  refine congrArg List.sum (List.map_congr_left fun f hf => ?_)
  exact (monomial_number (hterms f hf)).2

end Groups

theorem ofTerm_of_negligible {t : Monomial κ}
    (h : Scalar.isNegligible (0 : ρ) t.1 = true) : r.ofTerm t = 0 := by
  rw [ofTerm, ExactRing.isNegligible_zero.mp h]
  exact (congrArg (· * _) (map_zero r.scalar)).trans (zero_mul _)

variable (r) in
theorem keeps_collectProduct (e : Coeff κ) : r.Keeps e (e.collectProduct (0 : ρ)) := by
  intro h
  obtain ⟨hd, hn⟩ := monomial_number h
  unfold collectProduct
  dsimp only
  split
  · rename_i hz
    refine ⟨r.defined_lit _, ?_⟩
    rw [← hn, ofTerm_of_negligible hz, r.number_lit]
    exact map_zero r.scalar
  · obtain ⟨hd', hn'⟩ := ofMonomial_number hd
    exact ⟨hd', hn'.trans hn⟩

/-- Leaving out monomials with the number zero changes no sum. -/
theorem sum_filter_negligible (ts : List (Monomial κ)) :
    ((ts.filter fun t => !Scalar.isNegligible (0 : ρ) t.1).map r.ofTerm).sum =
      (ts.map r.ofTerm).sum := by
  induction ts with
  | nil => rfl
  | cons t ts ih =>
    by_cases hz : Scalar.isNegligible (0 : ρ) t.1 = true
    · simp [hz, ih, ofTerm_of_negligible hz]
    · simp [hz, ih]

section Collecting

variable [OrderKey κ]

variable (r) in
theorem keeps_collectSum (e : Coeff κ) : r.Keeps e (e.collectSum (0 : ρ)) := by
  intro h
  obtain ⟨hd, hn⟩ := groupTerms_number h
  have hkept : ∀ t ∈ (e.groupTerms.filter fun t => !Scalar.isNegligible (0 : ρ) t.1).map ofMonomial,
      r.Defined t := by
    intro t ht
    obtain ⟨m, hm, rfl⟩ := List.mem_map.mp ht
    exact (ofMonomial_number (hd m (List.mem_of_mem_filter hm))).1
  have hnumbers : ((e.groupTerms.filter fun t => !Scalar.isNegligible (0 : ρ) t.1).map
      (r.number ∘ ofMonomial)).sum = r.number e := by
    rw [← hn, ← sum_filter_negligible]
    refine congrArg List.sum (List.map_congr_left fun m hm => ?_)
    exact (ofMonomial_number (hd m (List.mem_of_mem_filter hm))).2
  unfold collectSum
  dsimp only
  cases hs : leftNested? add ((e.groupTerms.filter fun t =>
      !Scalar.isNegligible (0 : ρ) t.1).map ofMonomial) with
  | none =>
    rw [leftNested?_eq_none_iff, List.map_eq_nil_iff] at hs
    rw [hs] at hnumbers
    exact ⟨r.defined_lit _, ((r.number_lit _).trans (map_zero r.scalar)).trans hnumbers⟩
  | some e' =>
    obtain ⟨hd', hn'⟩ := leftNested_number (.inl rfl) hs hkept
    refine ⟨hd', hn'.trans ?_⟩
    rw [List.map_map]
    exact hnumbers

variable (r) in
theorem keeps_collect (e : Coeff κ) : r.Keeps e (e.collect (0 : ρ)) := by
  unfold collect
  split
  · exact keeps_unlessEqual (r.keeps_collectSum _)
  · exact keeps_unlessEqual (r.keeps_collectProduct _)
  · exact .refl _

end Collecting

end Reading

end SpinBoson.Coeff
