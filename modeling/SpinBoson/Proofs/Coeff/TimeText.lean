import SpinBoson.Coeff.TimeText
import SpinBoson.Proofs.Coeff.Evaluation
import SpinBoson.Proofs.Coeff.RoundTrip
import SpinBoson.Proofs.WrittenNumbers

/-!
The text of a coefficient as a function of time. It is read as a coefficient in which only the time is
free, with the values of the original one, as long as its literals are written as numerals that the
reader accepts.
-/
namespace SpinBoson.Coeff

variable {κ ρ : Type}

/-! Names -/

theorem leastName?_eq_none {names : List String} : leastName? names = none ↔ names = [] := by
  cases names with
  | nil => simp [leastName?]
  | cons name rest =>
    simp only [leastName?]
    split <;> simp

theorem leastName?_spec {names : List String} {name : String} (h : leastName? names = some name) :
    name ∈ names ∧ ∀ other ∈ names, name ≤ other := by
  induction names generalizing name with
  | nil => cases h
  | cons first rest ih =>
    simp only [leastName?] at h
    split at h
    · rename_i least hleast
      obtain ⟨hmem, hle⟩ := ih hleast
      split at h
      · rename_i hlt
        cases h
        exact ⟨List.mem_cons_of_mem _ hmem, List.forall_mem_cons.mpr ⟨le_of_lt hlt, hle⟩⟩
      · rename_i hnot
        cases h
        refine ⟨List.mem_cons_self, List.forall_mem_cons.mpr ⟨le_refl _, fun other hother => ?_⟩⟩
        exact (not_lt.mp hnot).trans (hle other hother)
    · rename_i hnone
      cases h
      rw [leastName?_eq_none.mp hnone]
      simp

/-- The first name is the one that is not behind any other. -/
theorem leastName?_eq_some {names : List String} {name : String} :
    leastName? names = some name ↔ name ∈ names ∧ ∀ other ∈ names, name ≤ other := by
  refine ⟨leastName?_spec, fun ⟨hmem, hle⟩ => ?_⟩
  cases hleast : leastName? names with
  | none =>
    rw [leastName?_eq_none.mp hleast] at hmem
    cases hmem
  | some least =>
    obtain ⟨hmem', hle'⟩ := leastName?_spec hleast
    exact congrArg some (le_antisymm (hle' name hmem) (hle least hmem'))

/-- Whether a node is no unread text and no variable with another name than these. -/
def IsNamed (S : String → Prop) : Coeff κ → Prop
  | var name => S name
  | raw _ => False
  | lit _ | neg _ | bin _ _ _ | app _ _ => True

theorem ofNames_isNamed (S : String → Prop) : OfNames (IsNamed S : Coeff κ → Prop) where
  lit _ := trivial
  neg _ := trivial
  bin _ _ _ := trivial
  app _ _ := trivial

theorem allNodes_isNamed {S : String → Prop} {e : Coeff κ} :
    e.AllNodes (IsNamed S) ↔ e.TextFree ∧ ∀ name ∈ e.variableNames, S name := by
  induction e with
  | lit | var | raw => simp [AllNodes, IsNamed, TextFree, variableNames]
  | neg e ih | app f e ih => simpa [AllNodes, IsNamed, TextFree, variableNames] using ih
  | bin op a b iha ihb =>
    rw [allNodes_bin (ofNames_isNamed S), iha, ihb, variableNames, List.forall_mem_append,
      TextFree, TextFree, TextFree, allNodes_bin ofNames_text]
    exact and_and_and_comm

/-- Whether all nodes of one coefficient have a property if those of another one do. -/
def Carries (P : Coeff κ → Prop) (e n : Coeff κ) : Prop :=
  e.AllNodes P → n.AllNodes P

theorem carries_congruence {P : Coeff κ → Prop} (hP : OfNames P) : Congruence (Carries P) where
  refl _ := id
  trans hab hbc := hbc ∘ hab
  neg h he := (allNodes_neg hP).mpr (h ((allNodes_neg hP).mp he))
  bin ha hb he := (allNodes_bin hP).mpr (((allNodes_bin hP).mp he).imp ha hb)
  app h he := ⟨hP.app _ _, h he.2⟩

variable [RealScalar ρ] [Scalar κ ρ]

/-- Normalization brings in no variables. -/
theorem isNamed_normalize [OrderKey κ] {S : String → Prop} {s : Settings ρ} {e n : Coeff κ}
    (h : e.normalize s = .ok n) : Carries (IsNamed S) e n := by
  have hP := ofNames_isNamed (κ := κ) S
  have hR := carries_congruence hP
  refine Pass.run_related hR.refl hR.trans (normalization s) ?_ h
  refine ⟨respects_ofRule hR fun e n hr => ?_, respects_ofRule hR ?_, respects_ofRule hR ?_,
    respects_ofRule hR ?_, trivial⟩
  · cases e with
    | raw text => exact fun hraw => hraw.elim
    | _ => cases hr; exact id
  · rintro e _ ⟨⟩
    exact allNodes_distribute hP
  · rintro e _ ⟨⟩
    exact allNodes_sortChain hP
  · rintro e _ ⟨⟩
    exact allNodes_collect hP s.tolerance

/-! Values put in -/

variable {β γ : Bindings κ}

omit [RealScalar ρ] [Scalar κ ρ] in
theorem isNamed_substitute {S : String → Prop} {e : Coeff κ} (hfree : e.TextFree)
    (h : ∀ name ∈ e.variableNames, β name = none → S name) :
    (e.substitute β).AllNodes (IsNamed S) := by
  induction e with
  | lit z => trivial
  | var name =>
    rw [substitute]
    cases hname : β name with
    | some z => trivial
    | none => exact h name (List.mem_singleton_self name) hname
  | raw text => exact absurd rfl (hfree text)
  | neg e ih | app f e ih => exact ⟨trivial, ih hfree.2 h⟩
  | bin op a b iha ihb =>
    rw [variableNames, List.forall_mem_append] at h
    exact ⟨trivial, iha hfree.2.1 h.1, ihb hfree.2.2 h.2⟩

/-- Putting values in keeps the value. -/
theorem defined_substitute {δ : Bindings κ} {e : Coeff κ} (hfree : e.TextFree)
    (h : ∀ name ∈ e.variableNames, δ name = (β name).or (γ name)) (hdef : e.Defined δ) :
    (e.substitute β).Defined γ ∧ (e.substitute β).number γ = e.number δ := by
  induction e with
  | lit z => exact ⟨defined_lit z, rfl⟩
  | var name =>
    have hname := h name (List.mem_singleton_self name)
    rw [substitute]
    cases hβ : β name with
    | some z =>
      rw [hβ, Option.some_or] at hname
      have hvalue : (var name).value δ = .ok z := by simp only [value, valueWith, hname]
      exact ⟨defined_lit z, (number_of_value hvalue).symm⟩
    | none =>
      rw [hβ, Option.none_or] at hname
      obtain ⟨z, hz⟩ := hdef
      have hvalue : (var name).value γ = .ok z := by
        rw [← hz]
        simp only [value, valueWith, hname]
      exact ⟨⟨z, hvalue⟩, (number_of_value hvalue).trans (number_of_value hz).symm⟩
  | raw text => exact absurd rfl (hfree text)
  | neg e ih =>
    obtain ⟨hd, heq⟩ := ih hfree.2 h (defined_neg.mp hdef)
    refine ⟨defined_neg.mpr hd, ?_⟩
    rw [substitute, number_neg hd, number_neg (defined_neg.mp hdef), heq]
  | app f e ih =>
    obtain ⟨hd, heq⟩ := ih hfree.2 h (defined_app.mp hdef)
    refine ⟨defined_app.mpr hd, ?_⟩
    rw [substitute, number_app hd, number_app (defined_app.mp hdef), heq]
  | bin op a b iha ihb =>
    rw [variableNames, List.forall_mem_append] at h
    obtain ⟨hda, hdb, hop⟩ := defined_bin.mp hdef
    obtain ⟨ha, heqa⟩ := iha hfree.2.1 h.1 hda
    obtain ⟨hb, heqb⟩ := ihb hfree.2.2 h.2 hdb
    have hd : (bin op (a.substitute β) (b.substitute β)).Defined γ :=
      defined_bin.mpr ⟨ha, hb, by rwa [heqa, heqb]⟩
    exact ⟨hd, by rw [substitute, number_bin hd, number_bin hdef, heqa, heqb]⟩

/-! Literals spelled out -/

theorem variableNames_spelled (e : Coeff κ) : e.spelled.variableNames = e.variableNames := by
  induction e with
  | lit z =>
    simp only [spelled, spelledLit]
    split
    · rfl
    · split
      · rfl
      · split <;> rfl
  | var | raw => rfl
  | neg e ih | app f e ih => exact ih
  | bin op a b iha ihb => simp only [spelled, variableNames, iha, ihb]

section Spelled

variable {κ : Type} [Scalar κ Double] [ExactScalar κ] [DoubleParts κ] {γ : Bindings κ}

theorem ofReal_of_beq {x y : Double} (h : (x == y) = true) :
    (Scalar.ofReal x : κ) = Scalar.ofReal y :=
  eq_of_beq (DoubleParts.ofParts_congr h rfl)

/-- The arithmetic that is written for a literal has its value. -/
theorem value_spelledLit {z : κ} (hz : IsLegible z) : (spelledLit z).value γ = .ok z := by
  have hparts : Scalar.ofReal (Scalar.re z) + Scalar.ofReal (Scalar.im z) * Scalar.imag = z :=
    (ExactScalar.ofParts_eq _ _).symm.trans hz.parts
  unfold spelledLit
  dsimp only
  split
  · rfl
  · split
    · next hzero =>
      rw [ofReal_of_beq hzero, ExactScalar.ofReal_zero, zero_add] at hparts
      exact congrArg Except.ok hparts
    · split
      · next hneg =>
        have hsign := Double.signBit_of_lt_zero hz.inRange.2.1 hneg
        have habs : (Scalar.ofReal (RealScalar.abs (Scalar.im z)) : κ) =
            -Scalar.ofReal (Scalar.im z) :=
          (congrArg Scalar.ofReal (Double.abs_eq_neg hsign)).trans (ExactScalar.ofReal_neg _)
        refine congrArg Except.ok ?_
        rw [habs]
        rw [sub_eq_add_neg, neg_mul, neg_neg]
        exact hparts
      · exact congrArg Except.ok hparts

theorem refines_spelled {e : Coeff κ} (h : e.AllNodes Legible) : Refines γ e e.spelled := by
  have hR := refines_congruence (κ := κ) γ
  induction e with
  | lit z =>
    have hvalue := value_spelledLit (γ := γ) h
    exact fun _ => ⟨⟨z, hvalue⟩, number_of_value hvalue⟩
  | var name => exact hR.refl _
  | raw text => exact h.elim
  | neg e ih => exact hR.neg (ih h.2)
  | app f e ih => exact hR.app (ih h.2)
  | bin op a b iha ihb => exact hR.bin (iha h.2.1) (ihb h.2.2)

end Spelled

/-! The text of a function of time -/

/-- The settings that the normal form is made with. -/
def formSettings (s : TimeSettings ρ) : Settings ρ :=
  ({} : Settings ρ).withTolerance s.tolerance

/-- The variables without a value, but for the time. -/
def unboundNames (s : TimeSettings ρ) (β : Bindings κ) (e : Coeff κ) : List String :=
  (e.substitute β).variableNames.filter (· ≠ s.timeSymbol)

omit [Scalar κ ρ] in
theorem mem_unboundNames {s : TimeSettings ρ} {e : Coeff κ} {name : String} :
    name ∈ unboundNames s β e ↔
      name ∈ e.variableNames ∧ β name = none ∧ name ≠ s.timeSymbol := by
  have hmem : name ∈ (e.substitute β).variableNames ↔ name ∈ e.variableNames ∧ β name = none := by
    induction e with
    | lit | raw => simp [substitute, variableNames]
    | var x =>
      rw [substitute]
      cases hx : β x with
      | some z => simp only [variableNames]; grind
      | none => simp only [variableNames]; grind
    | neg e ih | app f e ih => exact ih
    | bin op a b iha ihb =>
      simp only [substitute, variableNames, List.mem_append, iha, ihb]
      exact or_and_right.symm
  simp [unboundNames, hmem, and_assoc]

variable [OrderKey κ]

theorem timeText_of_up {s : TimeSettings ρ} {e e₁ : Coeff κ} (h : e.up readRawRule = .ok e₁) :
    timeText s β e =
      match leastName? (unboundNames s β e₁) with
      | some name => .error (.evaluation (.unbound name))
      | none => text <$> (e₁.substitute β).normalize (formSettings s) := by
  have hwalk : walk .post (readRawRule : Rule κ (Except Error)) e = .ok e₁ := h
  rw [timeText, hwalk, ok_bind]
  rfl

theorem timeText_of_up_error {s : TimeSettings ρ} {e : Coeff κ} {err : Error}
    (h : e.up readRawRule = .error err) : timeText s β e = .error err := by
  have hwalk : walk .post (readRawRule : Rule κ (Except Error)) e = .error err := h
  rw [timeText, hwalk]
  rfl

/-- A text is that of the normal form of what has no variable but the time. -/
theorem timeText_eq_ok {s : TimeSettings ρ} {e : Coeff κ} {t : String}
    (h : timeText s β e = .ok t) : ∃ e₁ n, e.up readRawRule = .ok e₁ ∧
      (∀ name ∈ e₁.variableNames, β name = none → name = s.timeSymbol) ∧
      (e₁.substitute β).normalize (formSettings s) = .ok n ∧ n.text = t := by
  cases hup : e.up readRawRule with
  | error err =>
    rw [timeText_of_up_error hup] at h
    cases h
  | ok e₁ =>
    rw [timeText_of_up hup] at h
    split at h
    · cases h
    · rename_i hnone
      cases hn : (e₁.substitute β).normalize (formSettings s) with
      | error err => rw [hn] at h; cases h
      | ok n =>
        rw [hn] at h
        refine ⟨e₁, n, rfl, fun name hname hβ => ?_, hn, Except.ok.inj h⟩
        by_contra htime
        have hmem := mem_unboundNames (β := β).mpr ⟨hname, hβ, htime⟩
        rw [leastName?_eq_none.mp hnone] at hmem
        cases hmem

omit [OrderKey κ] in
/-- Reading leaves no text. -/
theorem textFree_of_up {e e₁ : Coeff κ} (h : e.up readRawRule = .ok e₁) : e₁.TextFree := by
  obtain ⟨e', he', hfree⟩ := up_readRaw (readable_of_up h)
  obtain rfl := Except.ok.inj (he'.symm.trans h)
  exact hfree

/-- A variable is missing if it is the first one without a value in what has been read. -/
theorem timeText_eq_unbound_iff {s : TimeSettings ρ} {e : Coeff κ} {name : String} :
    timeText s β e = .error (.evaluation (.unbound name)) ↔
      ∃ e₁, e.up readRawRule = .ok e₁ ∧
        IsLeast { x | x ∈ e₁.variableNames ∧ β x = none ∧ x ≠ s.timeSymbol } name := by
  constructor
  · intro h
    cases hup : e.up readRawRule with
    | error err =>
      obtain ⟨cause, rfl⟩ := up_readRaw_error hup
      rw [timeText_of_up_error hup] at h
      cases h
    | ok e₁ =>
      rw [timeText_of_up hup] at h
      split at h
      · rename_i least hleast
        cases h
        obtain ⟨hmem, hle⟩ := leastName?_eq_some.mp hleast
        exact ⟨e₁, rfl, mem_unboundNames.mp hmem, fun x hx => hle x (mem_unboundNames.mpr hx)⟩
      · -- what has been read has a normal form
        rename_i hnone
        have hfree : (e₁.substitute β).TextFree := (allNodes_isNamed.mp
          (isNamed_substitute (S := fun _ => True) (textFree_of_up hup) fun _ _ _ => trivial)).1
        obtain ⟨n, hn⟩ := exists_normalize (formSettings s) hfree.readable
        rw [hn] at h
        cases h
  · rintro ⟨e₁, hup, hname, hle⟩
    have hleast : leastName? (unboundNames s β e₁) = some name :=
      leastName?_eq_some.mpr
        ⟨mem_unboundNames.mpr hname, fun x hx => hle (mem_unboundNames.mp hx)⟩
    rw [timeText_of_up hup, hleast]

section Meaning

variable {κ : Type} [Scalar κ Double] [ExactScalar κ] [DoubleParts κ] [OrderKey κ]
  {s : TimeSettings Double} {β : Bindings κ} {e : Coeff κ}

omit [Scalar κ Double] [ExactScalar κ] [DoubleParts κ] [OrderKey κ] in
theorem formSettings_tolerance (hs : s.tolerance = 0) : (formSettings s).tolerance = 0 := by
  rw [formSettings, Settings.withTolerance, hs]
  rfl

/-- Whether the literals of the normal form are made of doubles whose numerals can be read. -/
def IsWritten (s : TimeSettings Double) (β : Bindings κ) (e : Coeff κ) : Prop :=
  ∀ e₁ n, e.up readRawRule = .ok e₁ → (e₁.substitute β).normalize (formSettings s) = .ok n →
    n.AllNodes fun x => ∀ z, x = lit z → IsLegible z

/-- Values of variables with one of the time, unless it has one. -/
def atTime (β : Bindings κ) (time : String) (τ : κ) : Bindings κ :=
  fun name => (β name).or (if name = time then some τ else none)

omit [ExactScalar κ] [DoubleParts κ] [OrderKey κ] in
theorem legible_of_isNamed {e : Coeff κ} {S : String → Prop} (hS : ∀ name, S name → IsName name)
    (h : e.AllNodes (IsNamed S)) (hlit : e.AllNodes fun x => ∀ z, x = lit z → IsLegible z) :
    e.AllNodes Legible := by
  refine (h.and hlit).imp fun x ⟨hx, hx'⟩ => ?_
  cases x with
  | lit z => exact hx' z rfl
  | var name => exact hS name hx
  | raw text => exact hx
  | neg | bin | app => trivial

/-- Read, put in, brought into normal form and spelled out, a coefficient keeps its value. -/
theorem value_spelled {e₁ n : Coeff κ} (hs : s.tolerance = 0) (hup : e.up readRawRule = .ok e₁)
    (hnames : ∀ name ∈ e₁.variableNames, β name = none → name = s.timeSymbol)
    (hn : (e₁.substitute β).normalize (formSettings s) = .ok n) (hlegible : n.AllNodes Legible)
    {τ z : κ} (hz : e.value (atTime β s.timeSymbol τ) = .ok z) {γ : Bindings κ}
    (hγ : γ s.timeSymbol = some τ) : n.spelled.value γ = .ok z := by
  have hvalues : ∀ name ∈ e₁.variableNames,
      atTime β s.timeSymbol τ name = (β name).or (γ name) := by
    intro name hname
    cases hβ : β name with
    | some w => rw [atTime, hβ, Option.some_or, Option.some_or]
    | none =>
      obtain rfl := hnames name hname hβ
      rw [atTime, hβ, hγ, Option.none_or, Option.none_or, if_pos rfl]
  have hread := up_related (refines_congruence _) (fun _ _ => refines_readRawRule) hup ⟨z, hz⟩
  have hput := defined_substitute (textFree_of_up hup) hvalues hread.1
  have hnormal := normalize_refines (formSettings_tolerance hs) hn hput.1
  have hspelled := refines_spelled hlegible hnormal.1
  refine value_eq_ok_iff.mpr ⟨hspelled.1, ?_⟩
  rw [hspelled.2, hnormal.2, hput.2, hread.2, number_of_value hz]

/--
The text of a coefficient is read as a coefficient in which only the time is free, and at every time
at which the original has a value it has the same one. It is missing for a variable if that is the
first one without a value.
-/
theorem timeText_same_function (hs : s.tolerance = 0) (htime : IsName s.timeSymbol)
    (hwritten : IsWritten s β e) :
    (∀ text, timeText s β e = .ok text → ∃ n, parse text = .ok n ∧
      (∀ name ∈ n.variableNames, name = s.timeSymbol) ∧
      ∀ τ z, e.value (atTime β s.timeSymbol τ) = .ok z →
        ∀ γ : Bindings κ, γ s.timeSymbol = some τ → n.value γ = .ok z) ∧
    ∀ name, timeText s β e = .error (.evaluation (.unbound name)) ↔
      ∃ e₁, e.up readRawRule = .ok e₁ ∧
        IsLeast { x | x ∈ e₁.variableNames ∧ β x = none ∧ x ≠ s.timeSymbol } name := by
  refine ⟨fun text htext => ?_, fun name => timeText_eq_unbound_iff⟩
  obtain ⟨e₁, n, hup, hnames, hn, rfl⟩ := timeText_eq_ok htext
  have hnamed : n.AllNodes (IsNamed (· = s.timeSymbol)) :=
    isNamed_normalize hn (isNamed_substitute (textFree_of_up hup) hnames)
  have hlegible : n.AllNodes Legible :=
    legible_of_isNamed (S := (· = s.timeSymbol)) (by rintro _ rfl; exact htime) hnamed
      (hwritten e₁ n hup hn)
  obtain ⟨n', hparse, hbeq⟩ := exists_parse hlegible
  obtain rfl := eq_of_beq hbeq
  refine ⟨_, hparse, ?_, fun τ z hz γ hγ => value_spelled hs hup hnames hn hlegible hz hγ⟩
  rw [variableNames_spelled]
  exact (allNodes_isNamed.mp hnamed).2

end Meaning

theorem isLegible_two : IsLegible (⟨2⟩ : WrittenComplex) := by
  have htwo := shows_shown Double.shows_two
  have hzero := shows_shown Double.shows_zero
  exact ⟨WrittenComplex.ext (Complex.ext htwo.value hzero.value), ⟨htwo.inRange, hzero.inRange⟩,
    htwo.readsBack, hzero.readsBack⟩

theorem inNormalForm_square (name : String) :
    (pow (var name) (lit ⟨2⟩) : Coeff WrittenComplex).InNormalForm 0 := by
  have hone : (lit ⟨2⟩ : Coeff WrittenComplex).isLiteral 1 = false := by
    change ((⟨2⟩ : WrittenComplex) == 1) = false
    rw [← Bool.not_eq_true, WrittenComplex.beq_iff, WrittenComplex.ext_iff]
    exact OfNat.ofNat_ne_one 2
  have hzero : (lit ⟨2⟩ : Coeff WrittenComplex).isLiteral 0 = false := by
    change ((⟨2⟩ : WrittenComplex) == 0) = false
    rw [← Bool.not_eq_true, WrittenComplex.beq_iff, WrittenComplex.eq_zero_iff]
    exact two_ne_zero
  refine ⟨by simp [TextFree, AllNodes], ⟨?_, rfl, rfl⟩, ⟨?_, trivial, trivial⟩, ⟨rfl, rfl, rfl⟩⟩
  · simp [distribute, distributePower, hone, hzero]
  · simp [InOrder, Op.IsChain]

/-- A square of the time, with the exponent given by a variable. -/
theorem timeText_square :
    ∃ (s : TimeSettings Double) (β : Bindings WrittenComplex) (e : Coeff WrittenComplex),
      e = pow (var "t") (var "x") ∧ s.tolerance = 0 ∧ IsName s.timeSymbol ∧ IsWritten s β e ∧
      ∃ text n, timeText s β e = .ok text ∧ parse text = .ok n ∧
        ∀ τ, ∀ γ : Bindings WrittenComplex, γ "t" = some τ →
          n.value γ = .ok ⟨τ.value ^ (2 : ℂ)⟩ := by
  let s : TimeSettings Double := ⟨"t", 0⟩
  let β : Bindings WrittenComplex := fun name => if name = "x" then some ⟨2⟩ else none
  let e : Coeff WrittenComplex := pow (var "t") (var "x")
  have hname : IsName "t" := by
    refine ⟨⟨_, _, rfl, .inl rfl, ?_⟩, by decide, by decide⟩
    simp
  have hread : e.up readRawRule = .ok e := rfl
  have hput : e.substitute β = pow (var "t") (lit ⟨2⟩) := rfl
  have hnormal : (e.substitute β).normalize (formSettings s) = .ok (pow (var "t") (lit ⟨2⟩)) := by
    rw [hput]
    refine normalize_of_inNormalForm ?_ (beq_self_eq_true _)
    rw [formSettings_tolerance rfl]
    exact inNormalForm_square "t"
  have hwritten : IsWritten s β e := by
    intro e₁ n he₁ hn
    obtain rfl := Except.ok.inj (hread.symm.trans he₁)
    obtain rfl := Except.ok.inj (hnormal.symm.trans hn)
    simp [AllNodes, isLegible_two]
  have htext : timeText s β e = .ok (text (pow (var "t") (lit ⟨2⟩) : Coeff WrittenComplex)) := by
    have hnone : leastName? (unboundNames s β e) = none := rfl
    rw [timeText_of_up hread, hnone, hnormal]
    rfl
  obtain ⟨n, hn, -, hvalue⟩ := (timeText_same_function rfl hname hwritten).1 _ htext
  refine ⟨s, β, e, rfl, rfl, hname, hwritten, _, n, htext, hn, fun τ γ hγ => hvalue τ _ ?_ γ hγ⟩
  have hdiv : Scalar.dividesByZero τ ⟨2⟩ = false :=
    WrittenComplex.dividesByZero_eq_false_iff.mpr (.inr zero_le_two)
  change Op.pow.value e τ ⟨2⟩ = .ok (Scalar.power τ ⟨2⟩)
  simp only [Op.value, hdiv]
  rfl

/-- The reader has no whole numbers as large as the ones that are written. -/
theorem timeText_unreadable :
    timeText (⟨"t", 0⟩ : TimeSettings Double) noBindings
        (lit ⟨.ofFloat 1e20, 0⟩ : Coeff ComplexDouble) = .ok "100000000000000000000" ∧
      (parse "100000000000000000000" : Except ParseError (Coeff ComplexDouble)) =
        .error (.invalidToken 0 "100000000000000000000") := by
  have hscan : PlacedToken.scan "100000000000000000000" =
      .error (.invalidToken 0 "100000000000000000000") := by decide +kernel
  refine ⟨rfl, ?_⟩
  rw [parse, hscan]
  rfl

end SpinBoson.Coeff
