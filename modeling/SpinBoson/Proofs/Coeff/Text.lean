import SpinBoson.Proofs.Coeff.Collect

/-!
What has been read from text holds no unread text, and no step of the normal form brings in text or
a variable.
-/
namespace SpinBoson.Coeff

variable {κ ρ : Type} [RealScalar ρ] [Scalar κ ρ]

/-- Whether no unread text is left. -/
def TextFree (e : Coeff κ) : Prop :=
  e.AllNodes fun x => ∀ text, x ≠ raw text

/-- Whether all unread text can be read. -/
def Readable (e : Coeff κ) : Prop :=
  e.AllNodes fun x => ∀ text, x = raw text → ∃ e' : Coeff κ, parse text = .ok e'

def Frame.TextFree : Frame κ → Prop
  | operation _ left => left.TextFree
  | _ => True

def Place.TextFree : Place κ → Prop
  | operand => True
  | behind e => e.TextFree

theorem textFree_lit (z : κ) : (lit z).TextFree :=
  fun _ h => by cases h

theorem textFree_finish {e : Coeff κ} (he : e.TextFree) {frame : Frame κ} (h : frame.TextFree) :
    (frame.finish e).TextFree := by
  cases frame with
  | group => exact he
  | call f => exact ⟨by simp, he⟩
  | operation op left => exact ⟨by simp, h, he⟩
  | minus ofNumeral =>
    simp only [Frame.finish]
    split
    · exact textFree_lit _
    · exact ⟨by simp, he⟩

theorem textFree_reduce (least : Nat) {stack : List (Frame κ)} (hs : ∀ f ∈ stack, f.TextFree)
    {e : Coeff κ} (he : e.TextFree) :
    (reduce least e stack).1.TextFree ∧ ∀ f ∈ (reduce least e stack).2, f.TextFree := by
  induction stack generalizing e with
  | nil => exact ⟨he, by simp [reduce]⟩
  | cons frame stack ih =>
    obtain ⟨hf, hrest⟩ := List.forall_mem_cons.mp hs
    unfold reduce
    split
    · split
      · exact ih hrest (textFree_finish he hf)
      · exact ⟨he, hs⟩
    · exact ⟨he, hs⟩

theorem textFree_readFrom {stack : List (Frame κ)} {place : Place κ} {tokens : List PlacedToken}
    (hs : ∀ f ∈ stack, f.TextFree) (hp : place.TextFree) {e : Coeff κ}
    (h : readFrom stack place tokens = .ok e) : e.TextFree := by
  fun_induction readFrom stack place tokens with
  | case1 | case3 | case12 | case14 | case16 | case18 => cases h
  | case2 stack behind e' hreduce =>
    cases h
    have hr := (textFree_reduce 0 hs hp).1
    rwa [hreduce] at hr
  | case4 _ _ _ _ _ ih | case5 _ _ _ _ _ ih => exact ih hs (textFree_lit _) h
  | case6 _ _ _ _ ih | case7 _ _ _ _ ih => exact ih hs (textFree_lit _) h
  | case8 _ _ _ _ ih | case10 _ _ _ _ ih =>
    exact ih (List.forall_mem_cons.mpr ⟨trivial, hs⟩) trivial h
  | case9 _ _ _ _ ih => exact ih hs trivial h
  | case11 _ _ _ _ _ _ _ _ ih => exact ih (List.forall_mem_cons.mpr ⟨trivial, hs⟩) trivial h
  | case13 _ _ _ _ _ _ ih => exact ih hs (by intro text; simp) h
  | case15 _ _ _ _ _ _ e' stack' hreduce ih =>
    obtain ⟨he, hs'⟩ := textFree_reduce _ hs hp
    rw [hreduce] at he hs'
    exact ih (List.forall_mem_cons.mpr ⟨he, hs'⟩) trivial h
  | case17 _ _ _ _ _ e' frame stack' hreduce _ ih =>
    obtain ⟨he, hs'⟩ := textFree_reduce _ hs hp
    rw [hreduce] at he hs'
    obtain ⟨hframe, hs'⟩ := List.forall_mem_cons.mp hs'
    exact ih hs' (textFree_finish he hframe) h

theorem textFree_parse {text : String} {e : Coeff κ} (h : parse text = .ok e) : e.TextFree := by
  obtain ⟨tokens, _, h⟩ := bind_eq_ok.mp h
  have hplace : (Place.operand : Place κ).TextFree := trivial
  exact textFree_readFrom (by simp) hplace h

/-! Reading all text -/

theorem TextFree.readable {e : Coeff κ} (h : e.TextFree) : e.Readable :=
  h.imp fun _ hx text heq => absurd heq (hx text)

theorem readRawRule_coeff (e : Coeff κ) :
    readRawRule.coeff e = e.readRaw.mapError Error.ofParse := rfl

theorem up_readRaw_of_textFree {e : Coeff κ} (h : e.TextFree) : e.up readRawRule = .ok e := by
  induction e with
  | lit | var => rfl
  | raw text => exact absurd rfl (h text)
  | neg e ih | app f e ih =>
    simp only [up, ih h.2]
    rfl
  | bin op a b iha ihb =>
    simp only [up, iha h.2.1, ihb h.2.2]
    rfl

/-- Readable text is read, and then none is left. -/
theorem up_readRaw {e : Coeff κ} (h : e.Readable) :
    ∃ e', e.up readRawRule = .ok e' ∧ e'.TextFree := by
  induction e with
  | lit z => exact ⟨_, rfl, textFree_lit z⟩
  | var name => exact ⟨var name, rfl, by intro text; simp⟩
  | raw text =>
    obtain ⟨e', he'⟩ := h text rfl
    refine ⟨e', ?_, textFree_parse he'⟩
    rw [up, readRawRule_coeff, readRaw, he']
    rfl
  | neg e ih =>
    obtain ⟨e', he', hfree⟩ := ih h.2
    exact ⟨neg e', by simp only [up, he']; rfl, by simp, hfree⟩
  | app f e ih =>
    obtain ⟨e', he', hfree⟩ := ih h.2
    exact ⟨app f e', by simp only [up, he']; rfl, by simp, hfree⟩
  | bin op a b iha ihb =>
    obtain ⟨a', ha', hfreea⟩ := iha h.2.1
    obtain ⟨b', hb', hfreeb⟩ := ihb h.2.2
    exact ⟨bin op a' b', by simp only [up, ha', hb']; rfl, by simp, hfreea, hfreeb⟩

@[simp]
theorem readable_lit (z : κ) : (lit z).Readable :=
  (textFree_lit z).readable

@[simp]
theorem readable_bin {op : Op} {a b : Coeff κ} :
    (bin op a b).Readable ↔ a.Readable ∧ b.Readable := by
  simp [Readable, AllNodes]

/-- Text that has been read could be read. -/
theorem readable_of_up {e e' : Coeff κ} (h : e.up readRawRule = .ok e') : e.Readable := by
  induction e generalizing e' with
  | lit z => exact readable_lit z
  | var name => intro text heq; cases heq
  | raw text =>
    rintro text' ⟨⟩
    rw [up, readRawRule_coeff, readRaw] at h
    cases hparse : (parse text : Except ParseError (Coeff κ)) with
    | ok e => exact ⟨e, rfl⟩
    | error cause => rw [hparse] at h; cases h
  | neg e ih | app f e ih =>
    obtain ⟨d, hd, -⟩ := bind_eq_ok.mp h
    exact ⟨by simp, ih hd⟩
  | bin op a b iha ihb =>
    obtain ⟨a', ha, h⟩ := bind_eq_ok.mp h
    obtain ⟨b', hb, -⟩ := bind_eq_ok.mp h
    exact ⟨by simp, iha ha, ihb hb⟩

/-- A walk that reads text fails with a piece of it that cannot be read. -/
theorem up_readRaw_error {e : Coeff κ} {err : Error} (h : e.up readRawRule = .error err) :
    ∃ cause, err = .ofParse cause := by
  refine up_error (E := fun err => ∃ cause, err = .ofParse cause) (fun e err h => ?_) h
  rw [readRawRule_coeff] at h
  cases hread : e.readRaw with
  | ok d => rw [hread] at h; cases h
  | error cause => rw [hread] at h; cases h; exact ⟨cause, rfl⟩

theorem textFree_of_beq {e e' : Coeff κ} (h : (e == e') = true) (he : e.TextFree) :
    e'.TextFree := by
  induction e generalizing e' with
  | lit => obtain ⟨_, rfl, _⟩ := lit_beq.mp h; exact textFree_lit _
  | var => obtain rfl := var_beq.mp h; exact he
  | raw => obtain rfl := raw_beq.mp h; exact he
  | neg d ih => obtain ⟨_, rfl, hd⟩ := neg_beq.mp h; exact ⟨by simp, ih hd he.2⟩
  | app f d ih => obtain ⟨_, rfl, hd⟩ := app_beq.mp h; exact ⟨by simp, ih hd he.2⟩
  | bin op a b iha ihb =>
    obtain ⟨_, _, rfl, ha, hb⟩ := bin_beq.mp h
    exact ⟨by simp, iha ha he.2.1, ihb hb he.2.2⟩

/-! No step of the normal form brings names or text in -/

/-- Whether only variables and unread text can lack a property. -/
structure OfNames (P : Coeff κ → Prop) : Prop where
  lit : ∀ z, P (lit z)
  neg : ∀ e, P (neg e)
  bin : ∀ op a b, P (bin op a b)
  app : ∀ f e, P (app f e)

section OfNames

variable {P : Coeff κ → Prop} (hP : OfNames P)

include hP

omit [RealScalar ρ] [Scalar κ ρ] in
theorem allNodes_lit (z : κ) : (lit z).AllNodes P :=
  hP.lit z

omit [RealScalar ρ] [Scalar κ ρ] in
theorem allNodes_neg {e : Coeff κ} : (neg e).AllNodes P ↔ e.AllNodes P := by
  simp [AllNodes, hP.neg]

omit [RealScalar ρ] [Scalar κ ρ] in
theorem allNodes_bin {op : Op} {a b : Coeff κ} :
    (bin op a b).AllNodes P ↔ a.AllNodes P ∧ b.AllNodes P := by
  simp [AllNodes, hP.bin]

theorem allNodes_distribute {e : Coeff κ} (h : e.AllNodes P) : e.distribute.AllNodes P := by
  have hlit := allNodes_lit hP
  unfold distribute
  split
  · exact hlit _
  · rw [allNodes_neg hP] at h
    exact (allNodes_bin hP).mpr ⟨hlit _, h⟩
  · simp only [allNodes_bin hP] at h ⊢
    exact ⟨h.1, hlit _, h.2⟩
  · exact hlit _
  · exact hlit _
  · simp only [allNodes_bin hP] at h ⊢
    tauto
  · simp only [allNodes_bin hP] at h ⊢
    tauto
  · unfold distributeQuotient
    split
    · split
      · exact h
      · split
        · exact hlit _
        · simp only [allNodes_bin hP] at h ⊢
          tauto
        · simp only [allNodes_bin hP] at h ⊢
          exact ⟨h.1, hlit _⟩
    · simp only [allNodes_bin hP] at h ⊢
      tauto
    · simp only [allNodes_bin hP] at h ⊢
      exact ⟨h.1, h.2, hlit _⟩
  · unfold distributePower
    split
    · exact ((allNodes_bin hP).mp h).1
    · split
      · exact hlit _
      · split
        · split
          · exact h
          · exact hlit _
        · split
          · simp only [allNodes_bin hP] at h ⊢
            exact ⟨h.1.1, hlit _⟩
          · exact h
        · exact h
  · exact hlit _
  · exact h

omit [RealScalar ρ] [Scalar κ ρ] in
theorem allNodes_nested {op : Op} {es : List (Coeff κ)} (hes : ∀ t ∈ es, t.AllNodes P)
    {e : Coeff κ} (h : leftNested? (bin op) es = some e) : e.AllNodes P := by
  induction h using leftNested?_induction with
  | single e => exact hes e (List.mem_singleton_self e)
  | append es e t _ ih =>
    rw [List.forall_mem_append, List.forall_mem_singleton] at hes
    exact (allNodes_bin hP).mpr ⟨ih hes.1, hes.2⟩

omit hP in
theorem allNodes_unlessEqual {e n : Coeff κ} (he : e.AllNodes P) (hn : n.AllNodes P) :
    (unlessEqual e n).AllNodes P := by
  unfold unlessEqual
  split
  · exact he
  · exact hn

section

variable [OrderKey κ]

theorem allNodes_sortChain {e : Coeff κ} (h : e.AllNodes P) : e.sortChain.AllNodes P := by
  by_cases hchain : ∃ op a b, Op.IsChain op ∧ e = bin op a b
  · obtain ⟨op, a, b, hop, rfl⟩ := hchain
    obtain ⟨n, hn, heq⟩ := sortChain_bin hop a b
    rw [heq]
    refine allNodes_unlessEqual h (allNodes_nested hP (fun t ht => ?_) hn)
    exact AllNodes.operands h t ((sortOperands_perm _).mem_iff.mp ht)
  · rwa [sortChain_of_not_chain fun op a b hop heq => hchain ⟨op, a, b, hop, heq⟩]

omit [OrderKey κ] in
theorem allNodes_ofMonomial {t : Monomial κ} (h : ∀ e ∈ t.2, e.AllNodes P) :
    (ofMonomial t).AllNodes P := by
  rcases leftNested_ofMonomial t with ⟨-, hn⟩ | hn
  · exact allNodes_nested hP h hn
  · exact allNodes_nested hP (List.forall_mem_cons.mpr ⟨allNodes_lit hP t.1, h⟩) hn

omit [OrderKey κ] hP in
theorem allNodes_monomial {e : Coeff κ} (h : e.AllNodes P) : ∀ t ∈ e.monomial.2, t.AllNodes P :=
  fun t ht => AllNodes.operands h t (List.mem_of_mem_filter ht)

omit hP in
theorem allNodes_groupTerms {e : Coeff κ} (h : e.AllNodes P) :
    ∀ t ∈ e.groupTerms, ∀ f ∈ t.2, f.AllNodes P := by
  intro t ht
  obtain ⟨u, hu, heq⟩ := Groups.mem_of_mem_ofMonomials ht
  obtain ⟨f, hf, rfl⟩ := List.mem_map.mp hu
  exact heq ▸ allNodes_monomial (AllNodes.operands h f hf)

theorem allNodes_collectSum (tolerance : ρ) {e : Coeff κ} (h : e.AllNodes P) :
    (e.collectSum tolerance).AllNodes P := by
  unfold collectSum
  dsimp only
  cases hn : leftNested? add
      ((e.groupTerms.filter fun t => !Scalar.isNegligible tolerance t.1).map ofMonomial) with
  | none => exact allNodes_lit hP _
  | some n =>
    refine allNodes_nested hP (fun t ht => ?_) hn
    obtain ⟨m, hm, rfl⟩ := List.mem_map.mp ht
    exact allNodes_ofMonomial hP (allNodes_groupTerms h m (List.mem_of_mem_filter hm))

theorem allNodes_collect (tolerance : ρ) {e : Coeff κ} (h : e.AllNodes P) :
    (e.collect tolerance).AllNodes P := by
  unfold collect
  split
  · exact allNodes_unlessEqual h (allNodes_collectSum hP tolerance h)
  · refine allNodes_unlessEqual h ?_
    unfold collectProduct
    dsimp only
    split
    · exact allNodes_lit hP _
    · exact allNodes_ofMonomial hP (allNodes_monomial h)
  · exact h

end

end OfNames

/-! No step brings text back -/

omit [RealScalar ρ] [Scalar κ ρ] in
theorem ofNames_text : OfNames fun x : Coeff κ => ∀ text, x ≠ raw text where
  lit _ _ h := by cases h
  neg _ _ h := by cases h
  bin _ _ _ _ h := by cases h
  app _ _ _ h := by cases h

@[simp]
theorem textFree_bin {op : Op} {a b : Coeff κ} :
    (bin op a b).TextFree ↔ a.TextFree ∧ b.TextFree :=
  allNodes_bin ofNames_text

theorem textFree_rewrite {f : Coeff κ → Coeff κ} (hf : ∀ e : Coeff κ, e.TextFree → (f e).TextFree)
    {e : Coeff κ} (h : e.TextFree) : (e.rewrite f).TextFree := by
  induction e with
  | lit | var | raw => exact hf _ h
  | neg e ih | app g e ih => exact hf _ ⟨by simp, ih h.2⟩
  | bin op a b iha ihb => exact hf _ ⟨by simp, iha h.2.1, ihb h.2.2⟩

theorem textFree_distribute {e : Coeff κ} (h : e.TextFree) : e.distribute.TextFree :=
  allNodes_distribute ofNames_text h

theorem textFree_sortChain [OrderKey κ] {e : Coeff κ} (h : e.TextFree) : e.sortChain.TextFree :=
  allNodes_sortChain ofNames_text h

theorem textFree_collect [OrderKey κ] (tolerance : ρ) {e : Coeff κ} (h : e.TextFree) :
    (e.collect tolerance).TextFree :=
  allNodes_collect ofNames_text tolerance h

end SpinBoson.Coeff
