import SpinBoson.Proofs.Coeff.Grammar

/-!
Which tokens are sentences, and which begin one. Both can be told from the shape: tokens that leave
no bracket open and end behind an operand are a sentence, and tokens that have a shape at all can be
completed to one.
-/
namespace SpinBoson.Phrase

variable {k : Kind}

/-- Whether tokens lead from a shape to the end of a sentence. -/
def Ends (s : Shape) (ts : List Token) : Prop :=
  ∃ name?, s.run ts = some ⟨0, .behind name?⟩

theorem ends_cons {s : Shape} {t : Token} {ts : List Token} :
    Ends s (t :: ts) ↔ ∃ s', s.step t = some s' ∧ Ends s' ts := by
  simp only [Ends, Shape.run_cons, Option.bind_eq_some_iff]
  exact ⟨fun ⟨name?, s', hs, h⟩ => ⟨s', hs, name?, h⟩, fun ⟨s', hs, name?, h⟩ => ⟨name?, s', hs, h⟩⟩

theorem not_ends_operand_nil (n : Nat) : ¬ Ends ⟨n, .operand⟩ [] := by
  rintro ⟨name?, h⟩
  cases h

/-- Only an opening bracket looks at the name to its left. -/
theorem step_behind {n : Nat} {name? : Option String} {t : Token} (ht : t ≠ .lparen) :
    Shape.step ⟨n, .behind name?⟩ t = Shape.step ⟨n, .behind none⟩ t := by
  cases name? with
  | none => rfl
  | some name => cases t <;> first | rfl | exact absurd rfl ht

/-- What follows an operand: nothing, an operation, or a closing bracket. -/
theorem ends_behind {n : Nat} {ts : List Token} (h : Ends ⟨n, .behind none⟩ ts) :
    (n = 0 ∧ ts = []) ∨
      (∃ t op rest, ts = t :: rest ∧ Coeff.operation? t = some op ∧ Ends ⟨n, .operand⟩ rest) ∨
        ∃ m rest, n = m + 1 ∧ ts = .rparen :: rest ∧ Ends ⟨m, .behind none⟩ rest := by
  cases ts with
  | nil =>
    obtain ⟨name?, h⟩ := h
    cases h
    exact .inl ⟨rfl, rfl⟩
  | cons t rest =>
    obtain ⟨s, hs, hrest⟩ := ends_cons.mp h
    cases hop : Coeff.operation? t with
    | some op =>
      rw [Shape.step_operation hop] at hs
      cases hs
      exact .inr (.inl ⟨t, op, rest, rfl, hop, hrest⟩)
    | none =>
      cases t with
      | rparen =>
        cases n with
        | zero => cases hs
        | succ n =>
          cases hs
          exact .inr (.inr ⟨n, rest, rfl, rfl, hrest⟩)
      | imag | pi | float | int | ident | lparen => cases hs
      | plus | minus | star | slash | power | caret => cases hop

/-- What follows a name: the brackets of a function, or what follows any operand. -/
theorem ends_named {n : Nat} {name : String} {ts : List Token}
    (h : Ends ⟨n, .behind (some name)⟩ ts) :
    (∃ f rest, Func.name f = name ∧ ts = .lparen :: rest ∧ Ends ⟨n + 1, .operand⟩ rest) ∨
      Ends ⟨n, .behind none⟩ ts := by
  cases ts with
  | nil =>
    obtain ⟨name?, h⟩ := h
    cases h
    exact .inr ⟨none, rfl⟩
  | cons t rest =>
    by_cases ht : t = .lparen
    · subst ht
      obtain ⟨s, hs, hrest⟩ := ends_cons.mp h
      obtain ⟨hsome, hs⟩ := Option.ite_none_right_eq_some.mp hs
      cases hs
      obtain ⟨f, hf⟩ := Option.isSome_iff_exists.mp hsome
      exact .inl ⟨f, rest, Func.name_of_ofName? hf, rfl, hrest⟩
    · rw [ends_cons, step_behind ht] at h
      exact .inr (ends_cons.mpr h)

/-- The grammar tells apart operations by how tightly they hold. -/
theorem exists_sign {t : Token} {op : Coeff.Op} (h : Coeff.operation? t = some op) :
    (∃ s : Sign .expr, s.token = t) ∨ (∃ s : Sign .term, s.token = t) ∨
      ∃ s : PowerSign, s.token = t := by
  cases t with
  | plus => exact .inl ⟨.plus, rfl⟩
  | minus => exact .inl ⟨.minus, rfl⟩
  | star => exact .inr (.inl ⟨.star, rfl⟩)
  | slash => exact .inr (.inl ⟨.slash, rfl⟩)
  | power => exact .inr (.inr ⟨.stars, rfl⟩)
  | caret => exact .inr (.inr ⟨.caret, rfl⟩)
  | imag | pi | float | int | ident | lparen | rparen => cases h

theorem exists_sign_of_precedence {t : Token} {op : Coeff.Op} (h : Coeff.operation? t = some op)
    (hop : op.precedence = k.level) : ∃ s : Sign k, s.token = t := by
  rcases exists_sign h with ⟨s, rfl⟩ | ⟨s, rfl⟩ | ⟨s, rfl⟩
  · cases s.operation.symm.trans h
    rw [s.precedence] at hop
    cases k <;> first | exact ⟨s, rfl⟩ | exact absurd hop (by decide)
  · cases s.operation.symm.trans h
    rw [s.precedence] at hop
    cases k <;> first | exact ⟨s, rfl⟩ | exact absurd hop (by decide)
  · cases s.operation.symm.trans h
    cases k <;> exact absurd hop (by decide)

/-- A phrase that no operation of its own level follows ends. -/
theorem Stops.of_not_sign {k' : Kind} {t : Token} {ts : List Token} (h : Stops k' (t :: ts))
    (hk : k'.level = k.level + 1) (hnot : ∀ s : Sign k, s.token ≠ t) : Stops k (t :: ts) := by
  obtain ⟨hbracket, hops⟩ := stops_cons.mp h
  refine stops_cons.mpr ⟨hbracket, fun op hop => ?_⟩
  have hlt := hops op hop
  rw [hk] at hlt
  refine Nat.lt_of_le_of_ne (Nat.le_of_lt_succ hlt) fun heq => ?_
  obtain ⟨s, hs⟩ := exists_sign_of_precedence hop heq
  exact hnot s hs

/-! Sentences -/

/-- Whether tokens begin with a phrase of a kind that takes up as much as such a phrase can. -/
def Splits (k : Kind) (n : Nat) (ts : List Token) : Prop :=
  ∃ (p : Phrase k) (rest : List Token), ts = p.tokens ++ rest ∧ Ends ⟨n, .behind none⟩ rest ∧
    Stops k rest

/-- Whether fewer tokens than some number begin with a phrase of a kind wherever one is due. -/
def SplitsBelow (k : Kind) (length : Nat) : Prop :=
  ∀ {ts : List Token} {n : Nat}, ts.length < length → Ends ⟨n, .operand⟩ ts → Splits k n ts

/-- A phrase goes on as long as operations of its own level follow. -/
theorem splits_left_nested {k' : Kind} (join : Phrase k → Sign k → Phrase k' → Phrase k)
    (hjoin : ∀ l s r, (join l s r).tokens = l.tokens ++ s.token :: r.tokens)
    (hlevel : k'.level = k.level + 1) {length : Nat} (hoperand : SplitsBelow k' length) {n : Nat}
    (left : Phrase k) {rest : List Token} (hlength : rest.length ≤ length)
    (h : Ends ⟨n, .behind none⟩ rest) (hs : Stops k' rest) :
    Splits k n (left.tokens ++ rest) := by
  induction hl : rest.length using Nat.strongRecOn generalizing left rest with
  | _ l ih =>
    subst hl
    cases rest with
    | nil => exact ⟨left, [], rfl, h, stops_nil⟩
    | cons t rest =>
      by_cases hsign : ∃ s : Sign k, s.token = t
      · obtain ⟨s, rfl⟩ := hsign
        obtain ⟨_, hstep, hrest⟩ := ends_cons.mp h
        cases (Shape.step_operation s.operation).symm.trans hstep
        obtain ⟨right, rest', rfl, hrest', hs'⟩ := hoperand hlength hrest
        have hshorter : rest'.length < (s.token :: (right.tokens ++ rest')).length := by
          rw [List.length_cons, List.length_append]
          omega
        have := ih _ hshorter (join left s right) (by omega) hrest' hs' rfl
        rwa [hjoin, List.append_assoc, List.cons_append] at this
      · exact ⟨left, t :: rest, rfl, h, hs.of_not_sign hlevel fun s heq => hsign ⟨s, heq⟩⟩

/-- A power goes on if the operand in front of it is followed by a sign for powers. -/
theorem splits_power {length : Nat} (hexponent : SplitsBelow .unary length) {n : Nat}
    (base : Phrase .primary) {rest : List Token} (hlength : rest.length ≤ length)
    (h : Ends ⟨n, .behind none⟩ rest) : Splits .unary n (base.tokens ++ rest) := by
  rcases ends_behind h with ⟨rfl, rfl⟩ | ⟨t, op, rest, rfl, hop, hrest⟩ | ⟨m, rest, rfl, rfl, hrest⟩
  · exact ⟨.power (.primary base), [], rfl, h, stops_nil⟩
  · rcases exists_sign hop with ⟨s, rfl⟩ | ⟨s, rfl⟩ | ⟨s, rfl⟩
    · exact ⟨.power (.primary base), _, rfl, h, s.stops (by decide) _⟩
    · exact ⟨.power (.primary base), _, rfl, h, s.stops (by decide) _⟩
    · obtain ⟨exponent, rest', rfl, hrest', hs'⟩ := hexponent hlength hrest
      refine ⟨.power (.raised base s exponent), rest', ?_, hrest', hs'⟩
      simp [tokens]
  · exact ⟨.power (.primary base), _, rfl, h, stops_rparen _⟩

/-- Behind a whole expression in brackets these are closed. -/
theorem exists_closed {length : Nat} (hinner : SplitsBelow .expr length) {n : Nat}
    {ts : List Token} (hlength : ts.length < length) (h : Ends ⟨n + 1, .operand⟩ ts) :
    ∃ (e : Phrase .expr) (rest : List Token), ts = e.tokens ++ .rparen :: rest ∧
      Ends ⟨n, .behind none⟩ rest := by
  obtain ⟨e, rest, rfl, hrest, hs⟩ := hinner hlength h
  rcases ends_behind hrest with ⟨h, -⟩ | ⟨t, op, rest, rfl, hop, -⟩ | ⟨m, rest, hm, rfl, hrest⟩
  · cases h
  · exact absurd ((stops_cons.mp hs).2 op hop) (by cases op <;> decide)
  · cases hm
    exact ⟨e, rest, rfl, hrest⟩

theorem splits_unary {ts : List Token} (hunary : SplitsBelow .unary ts.length)
    (hexpr : SplitsBelow .expr ts.length) {n : Nat} (h : Ends ⟨n, .operand⟩ ts) :
    Splits .unary n ts := by
  cases ts with
  | nil => exact absurd h (not_ends_operand_nil n)
  | cons t rest =>
    have hlength : rest.length < (t :: rest).length := Nat.lt_succ_self _
    -- an operand in brackets is as long as it can be when these are closed
    have closed (opening : List Token) {ts : List Token} (p : Phrase .expr → Phrase .primary)
        (hp : ∀ e, (p e).tokens = opening ++ (e.tokens ++ [.rparen]))
        (hlength : ts.length < (t :: rest).length) (h : Ends ⟨n + 1, .operand⟩ ts) :
        Splits .unary n (opening ++ ts) := by
      obtain ⟨e, rest', rfl, hrest'⟩ := exists_closed hexpr hlength h
      have hle : rest'.length ≤ (t :: rest).length := by
        rw [List.length_append, List.length_cons] at hlength
        omega
      simpa [hp] using splits_power hunary (p e) hle hrest'
    have single (p : Phrase .primary) (h : Ends ⟨n, .behind none⟩ rest) :
        Splits .unary n (p.tokens ++ rest) :=
      splits_power hunary p (Nat.le_of_lt hlength) h
    obtain ⟨s, hs, hrest⟩ := ends_cons.mp h
    cases t with
    | int v =>
      cases hs
      exact single (.number (.int v)) hrest
    | float d =>
      cases hs
      exact single (.number (.float d)) hrest
    | imag =>
      cases hs
      exact single .imag hrest
    | pi =>
      cases hs
      exact single .pi hrest
    | ident name =>
      cases hs
      rcases ends_named hrest with ⟨f, inner, rfl, rfl, hinner⟩ | hplain
      · exact closed [.ident f.name, .lparen] (.call f) (fun _ => rfl)
          (Nat.lt_of_succ_lt hlength) hinner
      · exact single (.ident name) hplain
    | minus =>
      cases hs
      obtain ⟨u, rest', rfl, hrest', hstops⟩ := hunary hlength hrest
      exact ⟨.minus u, rest', rfl, hrest', hstops⟩
    | plus =>
      cases hs
      obtain ⟨u, rest', rfl, hrest', hstops⟩ := hunary hlength hrest
      exact ⟨.plus u, rest', rfl, hrest', hstops⟩
    | lparen =>
      cases hs
      exact closed [.lparen] .group (fun _ => rfl) hlength hrest
    | star | slash | power | caret | rparen => cases hs

theorem splits_of_ends {ts : List Token} {n : Nat} (h : Ends ⟨n, .operand⟩ ts) :
    Splits .unary n ts ∧ Splits .expr n ts := by
  induction hl : ts.length using Nat.strongRecOn generalizing ts n with
  | _ length ih =>
    subst hl
    have hunary : SplitsBelow .unary ts.length := fun hlength h => (ih _ hlength h rfl).1
    have hexpr : SplitsBelow .expr ts.length := fun hlength h => (ih _ hlength h rfl).2
    have unary := splits_unary hunary hexpr h
    -- a term begins with its first factor, and a sum with its first term
    have term {m : Nat} {us : List Token} (hle : us.length ≤ ts.length) (h : Splits .unary m us) :
        Splits .term m us := by
      obtain ⟨u, rest, rfl, hrest, hstops⟩ := h
      rw [List.length_append] at hle
      exact splits_left_nested .product (fun _ _ _ => rfl) rfl hunary (.unary u)
        (Nat.le_of_add_left_le hle) hrest hstops
    have hterm : SplitsBelow .term ts.length := fun hlength h =>
      term (Nat.le_of_lt hlength) (hunary hlength h)
    refine ⟨unary, ?_⟩
    obtain ⟨t, rest, rfl, hrest, hstops⟩ := term (Nat.le_refl _) unary
    have hle : rest.length ≤ (t.tokens ++ rest).length := (List.suffix_append _ _).length_le
    exact splits_left_nested .sum (fun _ _ _ => rfl) rfl hterm (.term t) hle hrest hstops

/-- Sentences are the tokens whose shape is that of an operand, with all brackets closed. -/
theorem exists_phrase_iff {ts : List Token} :
    (∃ p : Phrase .expr, p.tokens = ts) ↔ Ends ⟨0, .operand⟩ ts := by
  constructor
  · rintro ⟨p, rfl⟩
    exact p.isOperand_tokens 0
  · intro h
    obtain ⟨p, rest, rfl, hrest, hs⟩ := (splits_of_ends h).2
    rcases ends_behind hrest with ⟨-, rfl⟩ | ⟨t, op, rest, rfl, hop, -⟩ | ⟨m, rest, hm, -⟩
    · exact ⟨p, (List.append_nil _).symm⟩
    · exact absurd ((stops_cons.mp hs).2 op hop) (by cases op <;> decide)
    · cases hm

/-! Beginnings of sentences -/

/-- Whether tokens are a sentence or can be completed to one. -/
def Begins (ts : List Token) : Prop :=
  ∃ p : Phrase .expr, ts <+: p.tokens

/-- Closing every open bracket ends a sentence behind an operand. -/
theorem ends_closing (n : Nat) (name? : Option String) :
    Ends ⟨n, .behind name?⟩ (List.replicate n .rparen) := by
  induction n generalizing name? with
  | zero => exact ⟨name?, rfl⟩
  | succ n ih =>
    refine ends_cons.mpr ⟨⟨n, .behind none⟩, ?_, ih none⟩
    rw [step_behind (by nofun)]
    rfl

/-- Every shape leads to the end of a sentence. -/
theorem exists_ends (s : Shape) : ∃ ts, Ends s ts := by
  obtain ⟨n, spot⟩ := s
  cases spot with
  | behind name? => exact ⟨_, ends_closing n name?⟩
  | operand =>
    exact ⟨.imag :: List.replicate n .rparen, ends_cons.mpr ⟨_, rfl, ends_closing n none⟩⟩

/-- Tokens begin a sentence as long as they have a shape. -/
theorem begins_iff {ts : List Token} : Begins ts ↔ ∃ s, Shape.run ⟨0, .operand⟩ ts = some s := by
  constructor
  · rintro ⟨p, rest, hp⟩
    obtain ⟨name?, h⟩ := p.isOperand_tokens 0
    rw [← hp, Shape.run_append] at h
    obtain ⟨s, hs, -⟩ := Option.bind_eq_some_iff.mp h
    exact ⟨s, hs⟩
  · rintro ⟨s, hs⟩
    obtain ⟨rest, name?, hrest⟩ := exists_ends s
    have hends : Ends ⟨0, .operand⟩ (ts ++ rest) :=
      ⟨name?, by rw [Shape.run_append, hs, Option.bind_some, hrest]⟩
    obtain ⟨p, hp⟩ := exists_phrase_iff.mpr hends
    exact ⟨p, hp ▸ List.prefix_append ts rest⟩

end SpinBoson.Phrase
