import Mathlib.Data.List.Basic
import SpinBoson.Coeff.Parser

/-!
The grammar of coefficient text: derivations, what they spell and stand for, and that tokens have
one derivation at most. Sentences and their beginnings are recognized token by token, with nothing
kept but the number of open brackets and what stands to the left.
-/
namespace SpinBoson

namespace Phrase

/-- The kinds of phrases, from the loosest to the tightest. -/
inductive Kind where
  | expr | term | unary | power | primary

/-- The operations with a left operand of their own kind. -/
inductive Sign : Kind → Type where
  | plus : Sign .expr
  | minus : Sign .expr
  | star : Sign .term
  | slash : Sign .term

/-- The two spellings of a power. -/
inductive PowerSign where
  | stars | caret

inductive Number where
  | int (value : Nat)
  | float (value : Decimal)

end Phrase

open Phrase in
/--
Derivations in the grammar of coefficients. In no sentence does an opening bracket follow an
identifier; behind the name of a function there always is one.
-/
inductive Phrase : Kind → Type where
  | sum (left : Phrase .expr) (sign : Sign .expr) (right : Phrase .term) : Phrase .expr
  | term (t : Phrase .term) : Phrase .expr
  | product (left : Phrase .term) (sign : Sign .term) (right : Phrase .unary) : Phrase .term
  | unary (u : Phrase .unary) : Phrase .term
  | minus (u : Phrase .unary) : Phrase .unary
  | plus (u : Phrase .unary) : Phrase .unary
  | power (p : Phrase .power) : Phrase .unary
  | primary (p : Phrase .primary) : Phrase .power
  | raised (base : Phrase .primary) (sign : PowerSign) (exponent : Phrase .unary) : Phrase .power
  | number (n : Number) : Phrase .primary
  | imag : Phrase .primary
  | pi : Phrase .primary
  | ident (name : String) : Phrase .primary
  | call (f : Func) (argument : Phrase .expr) : Phrase .primary
  | group (inner : Phrase .expr) : Phrase .primary

namespace Phrase

variable {κ ρ : Type} {k : Kind}

/-! What phrases spell and stand for -/

def Sign.token : Sign k → Token
  | plus => .plus
  | minus => .minus
  | star => .star
  | slash => .slash

def Sign.op : Sign k → Coeff.Op
  | plus => .add
  | minus => .sub
  | star => .mul
  | slash => .div

def PowerSign.token : PowerSign → Token
  | stars => .power
  | caret => .caret

def Number.token : Number → Token
  | int n => .int n
  | float d => .float d

/-- The tokens of a phrase, left to right. -/
def tokens : {k : Kind} → Phrase k → List Token
  | _, sum left sign right => left.tokens ++ sign.token :: right.tokens
  | _, term t => t.tokens
  | _, product left sign right => left.tokens ++ sign.token :: right.tokens
  | _, unary u => u.tokens
  | _, minus u => .minus :: u.tokens
  | _, plus u => .plus :: u.tokens
  | _, power p => p.tokens
  | _, primary p => p.tokens
  | _, raised base sign exponent => base.tokens ++ sign.token :: exponent.tokens
  | _, number n => [n.token]
  | _, imag => [.imag]
  | _, pi => [.pi]
  | _, ident name => [.ident name]
  | _, call f argument => .ident f.name :: .lparen :: (argument.tokens ++ [.rparen])
  | _, group inner => .lparen :: (inner.tokens ++ [.rparen])

/-- The number that a phrase is made of alone. -/
def number? : {k : Kind} → Phrase k → Option Number
  | _, power p => p.number?
  | _, primary p => p.number?
  | _, number n => some n
  | _, _ => none

section Tree

variable [RealScalar ρ] [Scalar κ ρ]

def Number.value : Number → κ
  | int n => Scalar.ofReal (RealScalar.ofDecimal (.ofNat n))
  | float d => Scalar.ofReal (RealScalar.ofDecimal d)

/--
The coefficient that a phrase stands for. A minus sign in front of a number alone belongs to the
literal; a plus sign leaves no trace.
-/
def tree : {k : Kind} → Phrase k → Coeff κ
  | _, sum left sign right => .bin sign.op left.tree right.tree
  | _, term t => t.tree
  | _, product left sign right => .bin sign.op left.tree right.tree
  | _, unary u => u.tree
  | _, minus u =>
    match u.number? with
    | some n => .lit (-n.value)
    | none => .neg u.tree
  | _, plus u => u.tree
  | _, power p => p.tree
  | _, primary p => p.tree
  | _, raised base _ exponent => .pow base.tree exponent.tree
  | _, number n => .lit n.value
  | _, imag => .lit Scalar.imag
  | _, pi => .ofReal RealScalar.pi
  | _, ident name => .var name
  | _, call f argument => .app f argument.tree
  | _, group inner => inner.tree

end Tree

/-! What can follow -/

/-- How tightly an operation has to hold to take a phrase of this kind for its left operand. -/
def Kind.level : Kind → Nat
  | .expr => 1
  | .term => 2
  | .unary | .power => 3
  | .primary => 5

/-- Whether a phrase of some kind ends in front of these tokens. -/
def Stops (k : Kind) (ts : List Token) : Prop :=
  ∀ t ∈ ts.head?, t ≠ .lparen ∧ ∀ op, Coeff.operation? t = some op → op.precedence < k.level

theorem stops_nil : Stops k [] :=
  nofun

theorem stops_cons {t : Token} {ts : List Token} : Stops k (t :: ts) ↔
    t ≠ .lparen ∧ ∀ op, Coeff.operation? t = some op → op.precedence < k.level := by
  simp [Stops]

theorem Stops.mono {k' : Kind} {ts : List Token} (h : Stops k ts) (hk : k.level ≤ k'.level) :
    Stops k' ts :=
  fun t ht => ⟨(h t ht).1, fun op hop => Nat.lt_of_lt_of_le ((h t ht).2 op hop) hk⟩

theorem stops_rparen (ts : List Token) : Stops k (.rparen :: ts) :=
  stops_cons.mpr ⟨nofun, nofun⟩

theorem Sign.operation (s : Sign k) : Coeff.operation? s.token = some s.op := by
  cases s <;> rfl

theorem Sign.precedence (s : Sign k) : s.op.precedence = k.level := by
  cases s <;> rfl

theorem Sign.stops {k' : Kind} (s : Sign k) (h : k.level < k'.level) (ts : List Token) :
    Stops k' (s.token :: ts) := by
  refine stops_cons.mpr ⟨by cases s <;> nofun, fun op hop => ?_⟩
  cases s.operation.symm.trans hop
  rwa [s.precedence]

theorem PowerSign.operation (s : PowerSign) : Coeff.operation? s.token = some .pow := by
  cases s <;> rfl

theorem PowerSign.stops (s : PowerSign) (ts : List Token) : Stops .primary (s.token :: ts) := by
  cases s <;> exact stops_cons.mpr ⟨nofun, by rintro op ⟨⟩; decide⟩

theorem PowerSign.not_stops (s : PowerSign) (ts : List Token) : ¬ Stops .unary (s.token :: ts) :=
  fun h => absurd ((stops_cons.mp h).2 _ s.operation) (by decide)

/-! Reading the shape alone -/

/-- What stands to the left: nothing that could be an operand, or an operand and its name. -/
inductive Spot where
  | operand
  | behind (name? : Option String)

structure Shape where
  brackets : Nat
  spot : Spot

/-- The shape after one more token, if sentences go on with it. -/
def Shape.step (s : Shape) (t : Token) : Option Shape :=
  match s.spot, t with
  | .operand, .int _ | .operand, .float _ | .operand, .imag | .operand, .pi =>
    some ⟨s.brackets, .behind none⟩
  | .operand, .ident name => some ⟨s.brackets, .behind (some name)⟩
  | .operand, .minus | .operand, .plus => some s
  | .operand, .lparen => some ⟨s.brackets + 1, .operand⟩
  | .operand, _ => none
  | .behind (some name), .lparen =>
    if (Func.ofName? name).isSome then some ⟨s.brackets + 1, .operand⟩ else none
  | .behind _, .rparen =>
    if s.brackets = 0 then none else some ⟨s.brackets - 1, .behind none⟩
  | .behind _, t => if (Coeff.operation? t).isSome then some ⟨s.brackets, .operand⟩ else none

/-- The shape after some tokens. -/
def Shape.run (s : Shape) (ts : List Token) : Option Shape :=
  ts.foldlM step s

@[simp]
theorem Shape.run_nil (s : Shape) : s.run [] = some s := rfl

@[simp]
theorem Shape.run_cons (s : Shape) (t : Token) (ts : List Token) :
    s.run (t :: ts) = (s.step t).bind (·.run ts) := rfl

@[simp]
theorem Shape.run_append (s : Shape) (ts us : List Token) :
    s.run (ts ++ us) = (s.run ts).bind (·.run us) :=
  List.foldlM_append

/-- Behind an operand an operation may follow, whatever the operand. -/
theorem Shape.step_operation {n : Nat} {name? : Option String} {t : Token} {op : Coeff.Op}
    (h : Coeff.operation? t = some op) : step ⟨n, .behind name?⟩ t = some ⟨n, .operand⟩ := by
  cases t <;> cases name? <;> first | rfl | cases h

/-- Whether tokens stand where an operand does. -/
def IsOperand (ts : List Token) : Prop :=
  ∀ n, ∃ name?, Shape.run ⟨n, .operand⟩ ts = some ⟨n, .behind name?⟩

theorem isOperand_tokens (p : Phrase k) : IsOperand p.tokens := by
  intro n
  induction p generalizing n with
  | sum left sign right ihl ihr | product left sign right ihl ihr =>
    obtain ⟨l, hl⟩ := ihl n
    obtain ⟨r, hr⟩ := ihr n
    exact ⟨r, by simp [tokens, hl, hr, Shape.step_operation sign.operation]⟩
  | raised base sign exponent ihb ihe =>
    obtain ⟨b, hb⟩ := ihb n
    obtain ⟨e, he⟩ := ihe n
    exact ⟨e, by simp [tokens, hb, he, Shape.step_operation sign.operation]⟩
  | term p ih | unary p ih | minus p ih | plus p ih | power p ih | primary p ih => exact ih n
  | number value => exact ⟨none, by cases value <;> rfl⟩
  | imag | pi => exact ⟨none, rfl⟩
  | ident name => exact ⟨some name, rfl⟩
  | call f argument ih =>
    obtain ⟨a, ha⟩ := ih (n + 1)
    exact ⟨none, by simp [tokens, Shape.step, Func.ofName?_name, ha]⟩
  | group inner ih =>
    obtain ⟨a, ha⟩ := ih (n + 1)
    exact ⟨none, by simp [tokens, Shape.step, ha]⟩

/-! Uniqueness -/

/--
Whether tokens, read where an operand is due, close no bracket from before them, and have only
operations beside their own brackets that hold at least so tightly.
-/
def Guarded (least : Nat) (ts : List Token) : Prop :=
  ∀ ⦃n : Nat⦄ ⦃before after : List Token⦄ ⦃t : Token⦄ ⦃s : Shape⦄, ts = before ++ t :: after →
    Shape.run ⟨n, .operand⟩ before = some s → n ≤ s.brackets ∧
      ∀ name? op, s = ⟨n, .behind name?⟩ → Coeff.operation? t = some op → least ≤ op.precedence

theorem Guarded.mono {least least' : Nat} {ts : List Token} (h : Guarded least ts)
    (hle : least' ≤ least) : Guarded least' ts := by
  intro n before after t s hts hs
  obtain ⟨hopen, hop⟩ := h hts hs
  exact ⟨hopen, fun name? op heq ht => Nat.le_trans hle (hop name? op heq ht)⟩

/-- A single token has nothing in front of it. -/
theorem guarded_singleton (least : Nat) (t : Token) : Guarded least [t] := by
  intro n before after u s hts hs
  cases before with
  | nil =>
    cases hs
    exact ⟨Nat.le_refl _, nofun⟩
  | cons v before => simp at hts

/-- A sign in front leaves an operand due. -/
theorem guarded_signed {least : Nat} {t : Token} {ts : List Token}
    (ht : ∀ n, Shape.step ⟨n, .operand⟩ t = some ⟨n, .operand⟩) (h : Guarded least ts) :
    Guarded least (t :: ts) := by
  intro n before after u s hts hs
  cases before with
  | nil =>
    cases hs
    exact ⟨Nat.le_refl _, nofun⟩
  | cons v before =>
    obtain ⟨rfl, rfl⟩ := List.cons.inj hts
    rw [Shape.run_cons, ht, Option.bind_some] at hs
    exact h rfl hs

theorem guarded_operation {least : Nat} {as bs : List Token} {t : Token} {op : Coeff.Op}
    (has : Guarded least as) (hoperand : IsOperand as) (ht : Coeff.operation? t = some op)
    (hop : least ≤ op.precedence) (hbs : Guarded least bs) : Guarded least (as ++ t :: bs) := by
  intro n before after u s hts hs
  obtain ⟨name?, hrun⟩ := hoperand n
  have hsign {op' : Coeff.Op} (h : Coeff.operation? t = some op') :
      least ≤ op'.precedence := by
    rw [ht] at h
    cases h
    exact hop
  rcases List.append_eq_append_iff.mp hts with ⟨rest, rfl, hrest⟩ | ⟨rest, rfl, hrest⟩
  · rw [Shape.run_append, hrun, Option.bind_some] at hs
    cases rest with
    | nil =>
      cases hs
      obtain ⟨rfl, -⟩ := List.cons.inj hrest
      exact ⟨Nat.le_refl _, fun _ _ _ h => hsign h⟩
    | cons v rest =>
      obtain ⟨rfl, rfl⟩ := List.cons.inj hrest
      rw [Shape.run_cons, Shape.step_operation ht, Option.bind_some] at hs
      exact hbs rfl hs
  · cases rest with
    | nil =>
      rw [List.append_nil] at hrun
      cases hrun.symm.trans hs
      obtain ⟨rfl, -⟩ := List.cons.inj hrest
      exact ⟨Nat.le_refl _, fun _ _ _ h => hsign h⟩
    | cons v rest =>
      obtain ⟨rfl, -⟩ := List.cons.inj hrest
      exact has rfl hs

/-- Up to the closing bracket the opening one stays open. -/
theorem Guarded.brackets_open {least : Nat} {ts : List Token} (h : Guarded least ts)
    (hoperand : IsOperand ts) {n : Nat} {before after : List Token} {t : Token} {s : Shape}
    (hts : ts ++ [.rparen] = before ++ t :: after)
    (hs : Shape.run ⟨n + 1, .operand⟩ before = some s) : n < s.brackets := by
  obtain ⟨name?, hrun⟩ := hoperand (n + 1)
  have hend (heq : before = ts) : n < s.brackets := by
    subst heq
    cases hrun.symm.trans hs
    exact Nat.lt_succ_self n
  rcases List.append_eq_append_iff.mp hts with ⟨rest, rfl, hrest⟩ | ⟨rest, rfl, hrest⟩
  · cases rest with
    | nil => exact hend (List.append_nil _)
    | cons u rest => simp at hrest
  · cases rest with
    | nil => exact hend (List.append_nil _).symm
    | cons u rest =>
      obtain ⟨rfl, -⟩ := List.cons.inj hrest
      exact (h rfl hs).1

theorem guarded_tokens (p : Phrase k) : Guarded k.level p.tokens := by
  -- an operation behind brackets that are still open is none beside them
  have enclosed {least n : Nat} {t : Token} {s : Shape} (h : n < s.brackets) : n ≤ s.brackets ∧
      ∀ name? op, s = ⟨n, .behind name?⟩ → Coeff.operation? t = some op → least ≤ op.precedence :=
    ⟨Nat.le_of_lt h, fun _ _ heq => absurd h (by rw [heq]; exact Nat.lt_irrefl n)⟩
  induction p with
  | sum left sign right ihl ihr | product left sign right ihl ihr =>
    exact guarded_operation ihl left.isOperand_tokens sign.operation
      (Nat.le_of_eq sign.precedence.symm) (ihr.mono (by decide))
  | raised base sign exponent ihb ihe =>
    exact guarded_operation (ihb.mono (by decide)) base.isOperand_tokens sign.operation
      (by decide) ihe
  | term p ih | unary p ih | power p ih | primary p ih => exact ih.mono (by decide)
  | minus u ih | plus u ih => exact guarded_signed (fun _ => rfl) ih
  | number | imag | pi | ident => exact guarded_singleton _ _
  | call f argument ih =>
    intro n before after t s hts hs
    match before with
    | [] => exact guarded_singleton _ _ rfl hs
    | [u] =>
      obtain ⟨rfl, hrest⟩ := List.cons.inj hts
      obtain ⟨rfl, -⟩ := List.cons.inj hrest
      cases hs
      exact ⟨Nat.le_refl n, nofun⟩
    | u :: v :: before =>
      obtain ⟨rfl, htail⟩ := List.cons.inj hts
      obtain ⟨rfl, hrest⟩ := List.cons.inj htail
      simp only [Shape.run_cons, Shape.step, Func.ofName?_name, Option.isSome_some, if_true,
        Option.bind_some] at hs
      exact enclosed (ih.brackets_open argument.isOperand_tokens hrest hs)
  | group inner ih =>
    intro n before after t s hts hs
    match before with
    | [] => exact guarded_singleton _ _ rfl hs
    | u :: before =>
      obtain ⟨rfl, hrest⟩ := List.cons.inj hts
      exact enclosed (ih.brackets_open inner.isOperand_tokens hrest hs)

/-- Behind an operand, an operation that holds too loosely is not inside a guarded operand. -/
theorem not_cut {least : Nat} {as bs rest : List Token} {t : Token} {op : Coeff.Op}
    (has : IsOperand as) (ht : Coeff.operation? t = some op) (hbs : Guarded least bs)
    (hop : op.precedence < least) : bs ≠ as ++ t :: rest := by
  intro h
  obtain ⟨name?, hrun⟩ := has 0
  exact absurd ((hbs h hrun).2 name? op rfl ht) (Nat.not_le_of_lt hop)

theorem isOperand_behind {as bs : List Token} {t : Token} {op : Coeff.Op} (has : IsOperand as)
    (ht : Coeff.operation? t = some op) (h : IsOperand (as ++ t :: bs)) : IsOperand bs := by
  intro n
  obtain ⟨a, ha⟩ := has n
  obtain ⟨name?, hrun⟩ := h n
  rw [Shape.run_append, ha, Option.bind_some, Shape.run_cons, Shape.step_operation ht,
    Option.bind_some] at hrun
  exact ⟨name?, hrun⟩

section Split

variable {least : Nat} {as bs cs ds : List Token} {t u : Token} {op op' : Coeff.Op}

/-- Two operations split tokens at one place if neither can stand beside the other's operand. -/
theorem split_of_not_cut (hleft : ∀ rest, cs = as ++ t :: rest → bs ≠ rest ++ u :: ds)
    (hright : ∀ rest, as = cs ++ u :: rest → ds ≠ rest ++ t :: bs)
    (h : as ++ t :: bs = cs ++ u :: ds) : as = cs ∧ t = u ∧ bs = ds := by
  rcases List.append_eq_append_iff.mp h with ⟨rest, hrest, htail⟩ | ⟨rest, hrest, htail⟩
  · cases rest with
    | nil =>
      obtain ⟨rfl, rfl⟩ := List.cons.inj htail
      exact ⟨(hrest.trans (List.append_nil as)).symm, rfl, rfl⟩
    | cons v rest =>
      obtain ⟨rfl, hbs⟩ := List.cons.inj htail
      exact absurd hbs (hleft rest hrest)
  · cases rest with
    | nil =>
      obtain ⟨rfl, rfl⟩ := List.cons.inj htail
      exact ⟨hrest.trans (List.append_nil cs), rfl, rfl⟩
    | cons v rest =>
      obtain ⟨rfl, hds⟩ := List.cons.inj htail
      exact absurd hds (hright rest hrest)

variable (has : IsOperand as) (hcs : IsOperand cs) (ht : Coeff.operation? t = some op)
  (hu : Coeff.operation? u = some op') (hop : op.precedence < least) (hop' : op'.precedence < least)

include has hcs ht hu hop hop'

theorem split_left_nested (hbs : Guarded least bs) (hds : Guarded least ds)
    (h : as ++ t :: bs = cs ++ u :: ds) : as = cs ∧ t = u ∧ bs = ds := by
  refine split_of_not_cut ?_ ?_ h
  · rintro rest rfl
    exact not_cut (isOperand_behind has ht hcs) hu hbs hop'
  · rintro rest rfl
    exact not_cut (isOperand_behind hcs hu has) ht hds hop

theorem split_right_nested (hgas : Guarded least as) (hgcs : Guarded least cs)
    (h : as ++ t :: bs = cs ++ u :: ds) : as = cs ∧ t = u ∧ bs = ds :=
  split_of_not_cut (fun _ hrest => absurd hrest (not_cut has ht hgcs hop))
    (fun _ hrest => absurd hrest (not_cut hcs hu hgas hop')) h

end Split

theorem Sign.token_injective {s s' : Sign k} (h : s.token = s'.token) : s = s' := by
  cases s <;> cases s' <;> first | rfl | cases h

theorem PowerSign.token_injective {s s' : PowerSign} (h : s.token = s'.token) : s = s' := by
  cases s <;> cases s' <;> first | rfl | cases h

theorem Number.token_injective {n n' : Number} (h : n.token = n'.token) : n = n' := by
  cases n <;> cases n' <;> cases h <;> rfl

/-- An operation on two operands splits its tokens in one way, where the right one holds tighter. -/
theorem split_signed {k' : Kind} {left left' : Phrase k} {sign sign' : Sign k}
    {right right' : Phrase k'} (hk : k.level < k'.level)
    (h : left.tokens ++ sign.token :: right.tokens =
      left'.tokens ++ sign'.token :: right'.tokens) :
    left.tokens = left'.tokens ∧ sign = sign' ∧ right.tokens = right'.tokens := by
  obtain ⟨hl, hs, hr⟩ := split_left_nested left.isOperand_tokens left'.isOperand_tokens
    sign.operation sign'.operation (sign.precedence ▸ hk) (sign'.precedence ▸ hk)
    right.guarded_tokens right'.guarded_tokens h
  exact ⟨hl, Sign.token_injective hs, hr⟩

/-- A phrase that holds tighter than an operation is none with that operation. -/
theorem tokens_ne_signed {k' : Kind} (p : Phrase k') {left : Phrase k} {sign : Sign k}
    (hk : k.level < k'.level) (ts : List Token) : p.tokens ≠ left.tokens ++ sign.token :: ts :=
  not_cut left.isOperand_tokens sign.operation p.guarded_tokens (sign.precedence ▸ hk)

theorem tokens_ne_raised (p base : Phrase .primary) {sign : PowerSign} (ts : List Token) :
    p.tokens ≠ base.tokens ++ sign.token :: ts :=
  not_cut base.isOperand_tokens sign.operation p.guarded_tokens (by decide)

/-- Powers and what is tighter do not begin with a sign. -/
theorem tokens_primary (p : Phrase .primary) :
    ∃ t rest, p.tokens = t :: rest ∧ t ≠ .minus ∧ t ≠ .plus := by
  cases p with
  | number n => exact ⟨_, _, rfl, by cases n <;> exact ⟨nofun, nofun⟩⟩
  | imag | pi | ident | call | group => exact ⟨_, _, rfl, nofun, nofun⟩

theorem tokens_power (p : Phrase .power) (ts : List Token) :
    p.tokens ≠ .minus :: ts ∧ p.tokens ≠ .plus :: ts := by
  have hfirst : ∃ t rest, p.tokens = t :: rest ∧ t ≠ .minus ∧ t ≠ .plus := by
    cases p with
    | primary p => exact tokens_primary p
    | raised base sign exponent =>
      obtain ⟨t, rest, htokens, hsigns⟩ := tokens_primary base
      exact ⟨t, _, by rw [tokens, htokens, List.cons_append], hsigns⟩
  obtain ⟨t, rest, htokens, hminus, hplus⟩ := hfirst
  rw [htokens]
  exact ⟨fun h => hminus (List.cons.inj h).1, fun h => hplus (List.cons.inj h).1⟩

theorem eq_number {n : Number} {p : Phrase .primary} (h : p.tokens = [n.token]) :
    p = .number n := by
  cases p with
  | number n' => rw [Number.token_injective (List.cons.inj h).1]
  | imag | pi | ident | call | group => cases n <;> cases h

/-- Tokens have one derivation at most. -/
theorem tokens_injective {p q : Phrase k} (h : p.tokens = q.tokens) : p = q := by
  induction p with
  | sum left sign right ihl ihr =>
    cases q with
    | sum left' sign' right' =>
      obtain ⟨hl, rfl, hr⟩ := split_signed (by decide) h
      rw [ihl hl, ihr hr]
    | term t => exact absurd h.symm (t.tokens_ne_signed (by decide) _)
  | term t ih =>
    cases q with
    | sum left sign right => exact absurd h (t.tokens_ne_signed (by decide) _)
    | term t' => rw [ih h]
  | product left sign right ihl ihr =>
    cases q with
    | product left' sign' right' =>
      obtain ⟨hl, rfl, hr⟩ := split_signed (by decide) h
      rw [ihl hl, ihr hr]
    | unary u => exact absurd h.symm (u.tokens_ne_signed (by decide) _)
  | unary u ih =>
    cases q with
    | product left sign right => exact absurd h (u.tokens_ne_signed (by decide) _)
    | unary u' => rw [ih h]
  | minus u ih =>
    cases q with
    | minus u' => rw [ih (List.cons.inj h).2]
    | plus u' => cases h
    | power p => exact absurd h.symm (p.tokens_power _).1
  | plus u ih =>
    cases q with
    | minus u' => cases h
    | plus u' => rw [ih (List.cons.inj h).2]
    | power p => exact absurd h.symm (p.tokens_power _).2
  | power p ih =>
    cases q with
    | minus u => exact absurd h (p.tokens_power _).1
    | plus u => exact absurd h (p.tokens_power _).2
    | power p' => rw [ih h]
  | primary p ih =>
    cases q with
    | primary p' => rw [ih h]
    | raised base sign exponent => exact absurd h (p.tokens_ne_raised base _)
  | raised base sign exponent ihb ihe =>
    cases q with
    | primary p => exact absurd h.symm (p.tokens_ne_raised base _)
    | raised base' sign' exponent' =>
      obtain ⟨hb, hs, he⟩ := split_right_nested base.isOperand_tokens base'.isOperand_tokens
        sign.operation sign'.operation (by decide) (by decide) base.guarded_tokens
        base'.guarded_tokens h
      rw [ihb hb, PowerSign.token_injective hs, ihe he]
  | number n => exact (eq_number h.symm).symm
  | imag | pi =>
    cases q with
    | number n => exact eq_number h
    | imag | pi | ident | call | group => first | rfl | cases h
  | ident name =>
    cases q with
    | ident name' => rw [Token.ident.inj (List.cons.inj h).1]
    | number n => exact eq_number h
    | imag | pi | call | group => cases h
  | call f argument ih =>
    cases q with
    | call f' argument' =>
      obtain ⟨hname, htail⟩ := List.cons.inj h
      have hf : some f = some f' := by
        rw [← Func.ofName?_name f, Token.ident.inj hname, Func.ofName?_name]
      rw [Option.some.inj hf, ih (List.append_cancel_right (List.cons.inj htail).2)]
    | number n => exact eq_number h
    | imag | pi | ident | group => cases h
  | group inner ih =>
    cases q with
    | group inner' => rw [ih (List.append_cancel_right (List.cons.inj h).2)]
    | number n => exact eq_number h
    | imag | pi | ident | call => cases h

end Phrase

end SpinBoson
