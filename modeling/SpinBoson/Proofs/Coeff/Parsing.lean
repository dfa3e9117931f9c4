import Mathlib
import SpinBoson.Proofs.Coeff.Sentences
import SpinBoson.Proofs.Coeff.Text
import SpinBoson.Scalar.Complex

/-!
The reader against the grammar. In front of a phrase the reader takes all its tokens, and finishing
what is then open gives the phrase's tree; on any other tokens it stops where they cease to begin a
sentence.
-/
namespace SpinBoson

/-- The place in the text that an error points at. -/
def ParseError.position? : ParseError → Option Nat
  | invalidToken position _ | unexpectedToken position _ _ | trailingInput position _ =>
    some position
  | unexpectedEnd _ | unknownFunction _ => none

/-- The kind of the operands that phrases of a kind end with. -/
def Phrase.Kind.last : Phrase.Kind → Phrase.Kind
  | .primary => .primary
  | _ => .unary

theorem Phrase.Sign.finishes {k : Phrase.Kind} (s : Sign k) : s.op.finishes = k.level := by
  cases s <;> rfl

namespace Coeff

open Phrase

variable {κ ρ : Type} [RealScalar ρ] [Scalar κ ρ] {k : Kind}

/-! Reading a phrase -/

theorem negatesNumeral_cons (t : PlacedToken) (rest : List PlacedToken) :
    negatesNumeral (t :: rest) = (t.token.isNumber && !rest.head?.any (·.token.isPower)) := by
  cases rest <;> simp [negatesNumeral]

theorem not_isPower_of_stops {rest : List PlacedToken}
    (h : Stops .unary (rest.map (·.token))) : rest.head?.any (·.token.isPower) = false := by
  cases rest with
  | nil => rfl
  | cons t rest =>
    obtain ⟨token, start⟩ := t
    cases token with
    | power => exact absurd h (PowerSign.stars.not_stops _)
    | caret => exact absurd h (PowerSign.caret.not_stops _)
    | imag | pi | float | int | ident | plus | minus | star | slash | lparen | rparen => rfl

theorem negatesNumeral_primary (p : Phrase .primary) {ps rest : List PlacedToken}
    (hps : ps.map (·.token) = p.tokens) : negatesNumeral (ps ++ rest) =
      (p.number?.isSome && !rest.head?.any (·.token.isPower)) := by
  cases p with
  | number n =>
    obtain ⟨t, ts, rfl, ht, hts⟩ := List.map_eq_cons_iff.mp hps
    obtain rfl := List.map_eq_nil_iff.mp hts
    rw [List.singleton_append, negatesNumeral_cons, ht]
    cases n <;> rfl
  | imag | pi | ident | call | group =>
    obtain ⟨t, ts, rfl, ht, -⟩ := List.map_eq_cons_iff.mp hps
    rw [List.cons_append, negatesNumeral_cons, ht]
    rfl

/-- The reader sees ahead whether the operand of a minus sign is a number alone. -/
theorem negatesNumeral_unary (u : Phrase .unary) {ps rest : List PlacedToken}
    (hps : ps.map (·.token) = u.tokens) (hrest : Stops .unary (rest.map (·.token))) :
    negatesNumeral (ps ++ rest) = u.number?.isSome := by
  cases u with
  | minus u | plus u =>
    obtain ⟨t, ts, rfl, ht, -⟩ := List.map_eq_cons_iff.mp hps
    rw [List.cons_append, negatesNumeral_cons, ht]
    rfl
  | power p =>
    cases p with
    | primary p =>
      rw [negatesNumeral_primary p hps, not_isPower_of_stops hrest, Bool.not_false, Bool.and_true]
      rfl
    | raised base sign exponent =>
      obtain ⟨bs, es, rfl, hbs, hes⟩ := List.map_eq_append_iff.mp hps
      obtain ⟨t, ts, rfl, ht, -⟩ := List.map_eq_cons_iff.mp hes
      have hpower : t.token.isPower = true := by
        rw [ht]
        cases sign <;> rfl
      rw [List.append_assoc, negatesNumeral_primary base hbs, List.cons_append, List.head?_cons,
        Option.any_some, hpower, Bool.not_true, Bool.and_false]
      rfl

theorem tree_of_number? {p : Phrase k} {n : Number} (h : p.number? = some n) :
    (p.tree : Coeff κ) = .lit n.value := by
  induction p with
  | power p ih | primary p ih => exact ih h
  | number n' =>
    cases h
    rfl
  | sum | term | product | unary | minus | plus | raised | imag | pi | ident | call | group =>
    cases h

/-- Of its operand, the frame of a minus sign makes the tree of the phrase. -/
theorem finish_minus (u : Phrase .unary) :
    (Frame.minus u.number?.isSome).finish u.tree = ((Phrase.minus u).tree : Coeff κ) := by
  cases hn : u.number? with
  | none => simp [Frame.finish, tree, hn]
  | some n => simp [Frame.finish, tree, hn, tree_of_number? hn]

/-! What is open while a phrase is read -/

theorem reduce_of_tighter (e : Coeff κ) {least n : Nat} (h : least ≤ n) {frame : Frame κ}
    (hframe : frame.precedence? = some n) (stack : List (Frame κ)) :
    reduce least e (frame :: stack) = reduce least (frame.finish e) stack := by
  rw [reduce, hframe]
  exact if_pos h

theorem reduce_of_looser (e : Coeff κ) {least : Nat} {stack : List (Frame κ)}
    (h : ∀ frame ∈ stack.head?, ∀ n ∈ frame.precedence?, n < least) :
    reduce least e stack = (e, stack) := by
  cases stack with
  | nil => rfl
  | cons frame stack =>
    rw [reduce]
    cases hframe : frame.precedence? with
    | none => rfl
    | some n => exact if_neg (Nat.not_le_of_lt (h frame rfl n hframe))

/-- No open operation holds so tightly that a power would finish it. -/
theorem reduce_pow (e : Coeff κ) (stack : List (Frame κ)) :
    reduce Op.pow.finishes e stack = (e, stack) := by
  refine reduce_of_looser e fun frame _ n hn => ?_
  cases frame with
  | group | call => cases hn
  | minus ofNumeral =>
    cases hn
    decide
  | operation op left =>
    cases hn
    cases op <;> decide

/-- Whether the operations of a kind leave open what is open. -/
def Fits (k : Kind) (stack : List (Frame κ)) : Prop :=
  ∀ _ : Sign k, ∀ frame ∈ stack.head?, ∀ n ∈ frame.precedence?, n < k.level

theorem Fits.reduce {stack : List (Frame κ)} (h : Fits k stack) (s : Sign k) (e : Coeff κ) :
    reduce s.op.finishes e stack = (e, stack) := by
  rw [s.finishes]
  exact reduce_of_looser e (h s)

theorem fits_operation {k' : Kind} (s : Sign k) (h : k.level < k'.level) (left : Coeff κ)
    (stack : List (Frame κ)) : Fits k' (.operation s.op left :: stack) := by
  rintro - frame ⟨⟩ n ⟨⟩
  rwa [s.precedence]

/-! Reading a phrase -/

theorem readFrom_operation {t : PlacedToken} {op : Op} (ht : operation? t.token = some op)
    {e e' : Coeff κ} {stack stack' : List (Frame κ)} (h : reduce op.finishes e stack = (e', stack'))
    (rest : List PlacedToken) : readFrom stack (.behind e) (t :: rest) =
      readFrom (.operation op e' :: stack') .operand rest := by
  rw [readFrom, ht]
  dsimp only
  rw [h]

theorem readFrom_rparen {t : PlacedToken} (ht : t.token = .rparen) {e e' : Coeff κ}
    {frame : Frame κ} {stack stack' : List (Frame κ)}
    (h : reduce 0 e stack = (e', frame :: stack')) (rest : List PlacedToken) :
    readFrom stack (.behind e) (t :: rest) = readFrom stack' (.behind (frame.finish e')) rest := by
  rw [readFrom, ht, h]
  rfl

theorem readFrom_ident {t : PlacedToken} {name : String} (ht : t.token = .ident name)
    (stack : List (Frame κ)) {rest : List PlacedToken}
    (h : ∀ u ∈ rest.head?, u.token ≠ .lparen) :
    readFrom stack .operand (t :: rest) = readFrom stack (.behind (.var name)) rest := by
  rw [readFrom, ht]
  cases rest with
  | nil => rfl
  | cons u rest =>
    obtain ⟨token, start⟩ := u
    cases token with
    | lparen => exact absurd rfl (h _ rfl)
    | imag | pi | float | int | ident | plus | minus | star | slash | power | caret | rparen => rfl

theorem readFrom_call {t u : PlacedToken} {f : Func} (ht : t.token = .ident f.name)
    (hu : u.token = .lparen) (stack : List (Frame κ)) (rest : List PlacedToken) :
    readFrom stack .operand (t :: u :: rest) = readFrom (.call f :: stack) .operand rest := by
  obtain ⟨token, start⟩ := u
  subst hu
  rw [readFrom, ht]
  simp only [Func.ofName?_name]

/--
Whether the reader takes a phrase for what it stands for: behind its tokens the open operations of
the phrase remain, and finishing these makes its tree.
-/
def Reads (κ : Type) {ρ : Type} [RealScalar ρ] [Scalar κ ρ] (p : Phrase k) : Prop :=
  ∀ (stack : List (Frame κ)) ⦃ps rest : List PlacedToken⦄, ps.map (·.token) = p.tokens →
    Stops k.last (rest.map (·.token)) → Fits k stack →
      ∃ e stack', readFrom stack .operand (ps ++ rest) = readFrom stack' (.behind e) rest ∧
        ∀ least ≤ k.level, reduce least e stack' = reduce least p.tree stack

theorem reads_operation {k' : Kind} {left : Phrase k} {right : Phrase k'} {t : Token} {op : Op}
    (ht : operation? t = some op) (hleft : Reads κ left) (hright : Reads κ right)
    (hlevel : op.finishes ≤ k.level) (hstops : ∀ ts, Stops k.last (t :: ts))
    {stack : List (Frame κ)} (hfits : Fits k stack)
    (hopen : reduce op.finishes left.tree stack = (left.tree, stack))
    (hfits' : Fits k' (.operation op left.tree :: stack)) {ps rest : List PlacedToken}
    (hps : ps.map (·.token) = left.tokens ++ t :: right.tokens)
    (hrest : Stops k'.last (rest.map (·.token))) :
    ∃ e stack', readFrom stack .operand (ps ++ rest) = readFrom stack' (.behind e) rest ∧
      ∀ least, least ≤ k'.level → least ≤ op.precedence →
        reduce least e stack' = reduce least (.bin op left.tree right.tree) stack := by
  obtain ⟨ls, rs', rfl, hls, hrs'⟩ := List.map_eq_append_iff.mp hps
  obtain ⟨u, rs, rfl, hu, hrs⟩ := List.map_eq_cons_iff.mp hrs'
  have hnext : Stops k.last ((u :: (rs ++ rest)).map (·.token)) := by
    rw [List.map_cons, hu]
    exact hstops _
  obtain ⟨e, stack₁, hread, hreduce⟩ := hleft stack hls hnext hfits
  obtain ⟨e', stack₂, hread', hreduce'⟩ := hright _ hrs hrest hfits'
  refine ⟨e', stack₂, ?_, fun least hk' hop => ?_⟩
  · rw [List.append_assoc, List.cons_append, hread,
      readFrom_operation (hu ▸ ht) ((hreduce _ hlevel).trans hopen), hread']
  · rw [hreduce' least hk', reduce_of_tighter _ hop rfl]
    rfl

/-- Brackets wait for their closing, whatever has been read between them. -/
theorem reads_closed {inner : Phrase .expr} (h : Reads κ inner) (frame : Frame κ)
    (hframe : frame.precedence? = none) (stack : List (Frame κ)) {ps rest : List PlacedToken}
    (hps : ps.map (·.token) = inner.tokens ++ [.rparen]) :
    readFrom (frame :: stack) .operand (ps ++ rest) =
      readFrom stack (.behind (frame.finish inner.tree)) rest := by
  obtain ⟨is, cs, rfl, his, hcs⟩ := List.map_eq_append_iff.mp hps
  obtain ⟨t, ts, rfl, ht, hts⟩ := List.map_eq_cons_iff.mp hcs
  obtain rfl := List.map_eq_nil_iff.mp hts
  have hnext : Stops .unary ((t :: rest).map (·.token)) := by
    rw [List.map_cons, ht]
    exact stops_rparen _
  have hfits : Fits .expr (frame :: stack) := by
    rintro - _ ⟨⟩ n hn
    cases hframe.symm.trans hn
  obtain ⟨e, stack', hread, hreduce⟩ := h _ his hnext hfits
  have hopen : reduce 0 e stack' = (inner.tree, frame :: stack) := by
    rw [hreduce 0 (Nat.zero_le _), reduce, hframe]
  rw [List.append_assoc, List.singleton_append, hread, readFrom_rparen ht hopen]

theorem readFrom_phrase (p : Phrase k) : Reads κ p := by
  induction p with
  | sum left sign right ihl ihr | product left sign right ihl ihr =>
    intro stack ps rest hps hrest hstack
    obtain ⟨e, stack', hread, hreduce⟩ := reads_operation sign.operation ihl ihr
      (Nat.le_of_eq sign.finishes) (sign.stops (by decide)) hstack (hstack.reduce sign _)
      (fits_operation sign (by decide) _ _) hps hrest
    refine ⟨e, stack', hread, fun least hle => hreduce least (Nat.le_succ_of_le hle) ?_⟩
    rwa [sign.precedence]
  | raised base sign exponent ihb ihe =>
    intro stack ps rest hps hrest hstack
    obtain ⟨e, stack', hread, hreduce⟩ := reads_operation sign.operation ihb ihe (by decide)
      sign.stops nofun (reduce_pow _ _) nofun hps hrest
    exact ⟨e, stack', hread, fun least hle => hreduce least hle (Nat.le_succ_of_le hle)⟩
  | term t ih =>
    intro stack ps rest hps hrest hstack
    obtain ⟨e, stack', hread, hreduce⟩ := ih stack hps hrest fun _ frame hframe n hn =>
      Nat.lt_succ_of_lt (hstack .plus frame hframe n hn)
    exact ⟨e, stack', hread, fun least hle => hreduce least (Nat.le_succ_of_le hle)⟩
  | unary u ih =>
    intro stack ps rest hps hrest hstack
    obtain ⟨e, stack', hread, hreduce⟩ := ih stack hps hrest nofun
    exact ⟨e, stack', hread, fun least hle => hreduce least (Nat.le_succ_of_le hle)⟩
  | power p ih => exact fun stack _ _ hps hrest _ => ih stack hps hrest nofun
  | primary p ih =>
    intro stack ps rest hps hrest hstack
    obtain ⟨e, stack', hread, hreduce⟩ := ih stack hps (hrest.mono (by decide)) nofun
    exact ⟨e, stack', hread, fun least hle => hreduce least (Nat.le_trans hle (by decide))⟩
  | minus u ih =>
    intro stack ps rest hps hrest hstack
    obtain ⟨⟨_, start⟩, us, rfl, rfl, hus⟩ := List.map_eq_cons_iff.mp hps
    obtain ⟨e, stack', hread, hreduce⟩ := ih (.minus u.number?.isSome :: stack) hus hrest nofun
    refine ⟨e, stack', ?_, fun least hle => ?_⟩
    · rw [List.cons_append, readFrom]
      simp only [negatesNumeral_unary u hus hrest, hread]
    · rw [hreduce least hle, reduce_of_tighter _ hle rfl, finish_minus]
  | plus u ih =>
    intro stack ps rest hps hrest hstack
    obtain ⟨⟨_, start⟩, us, rfl, rfl, hus⟩ := List.map_eq_cons_iff.mp hps
    obtain ⟨e, stack', hread, hreduce⟩ := ih stack hus hrest nofun
    exact ⟨e, stack', hread, hreduce⟩
  | number n =>
    intro stack ps rest hps hrest hstack
    obtain ⟨⟨_, start⟩, us, rfl, rfl, hus⟩ := List.map_eq_cons_iff.mp hps
    obtain rfl := List.map_eq_nil_iff.mp hus
    refine ⟨_, stack, ?_, fun _ _ => rfl⟩
    cases n <;> rfl
  | imag | pi =>
    intro stack ps rest hps hrest hstack
    obtain ⟨⟨_, start⟩, us, rfl, rfl, hus⟩ := List.map_eq_cons_iff.mp hps
    obtain rfl := List.map_eq_nil_iff.mp hus
    exact ⟨_, stack, rfl, fun _ _ => rfl⟩
  | ident name =>
    intro stack ps rest hps hrest hstack
    obtain ⟨t, us, rfl, ht, hus⟩ := List.map_eq_cons_iff.mp hps
    obtain rfl := List.map_eq_nil_iff.mp hus
    refine ⟨_, stack, readFrom_ident ht stack fun u hu => ?_, fun _ _ => rfl⟩
    exact (hrest u.token (by rw [List.head?_map]; exact Option.mem_map_of_mem _ hu)).1
  | call f argument ih =>
    intro stack ps rest hps hrest hstack
    obtain ⟨t, us', rfl, ht, hus'⟩ := List.map_eq_cons_iff.mp hps
    obtain ⟨u, us, rfl, hu, hus⟩ := List.map_eq_cons_iff.mp hus'
    refine ⟨_, stack, ?_, fun _ _ => rfl⟩
    rw [List.cons_append, List.cons_append, readFrom_call ht hu,
      reads_closed ih (.call f) rfl stack hus]
    rfl
  | group inner ih =>
    intro stack ps rest hps hrest hstack
    obtain ⟨⟨_, start⟩, us, rfl, rfl, hus⟩ := List.map_eq_cons_iff.mp hps
    refine ⟨_, stack, ?_, fun _ _ => rfl⟩
    exact reads_closed ih .group rfl stack hus

/-- Reading the tokens of an expression gives its tree. -/
theorem ofTokens_phrase (p : Phrase .expr) {ps : List PlacedToken}
    (hps : ps.map (·.token) = p.tokens) : ofTokens ps = .ok (p.tree : Coeff κ) := by
  have hend : Stops .unary (([] : List PlacedToken).map (·.token)) := stops_nil
  obtain ⟨e, stack, hread, hreduce⟩ := readFrom_phrase (κ := κ) p [] hps hend nofun
  rw [List.append_nil] at hread
  rw [ofTokens, hread, readFrom, hreduce 0 (Nat.zero_le _)]
  rfl

/-! Where reading stops -/

/-- How many brackets are open. -/
def depth (stack : List (Frame κ)) : Nat :=
  stack.countP fun frame => frame.precedence?.isNone

theorem depth_cons_bracket {frame : Frame κ} (h : frame.precedence? = none)
    (stack : List (Frame κ)) : depth (frame :: stack) = depth stack + 1 :=
  List.countP_cons_of_pos (by simp [h])

theorem depth_cons_open {frame : Frame κ} {n : Nat} (h : frame.precedence? = some n)
    (stack : List (Frame κ)) : depth (frame :: stack) = depth stack :=
  List.countP_cons_of_neg (by simp [h])

theorem depth_reduce (least : Nat) (e : Coeff κ) (stack : List (Frame κ)) :
    depth (reduce least e stack).2 = depth stack := by
  induction stack generalizing e with
  | nil => rfl
  | cons frame stack ih =>
    rw [reduce]
    cases hframe : frame.precedence? with
    | none => rfl
    | some n =>
      dsimp only
      split
      · rw [ih, depth_cons_open hframe]
      · rfl

/-- What has not been finished in the end is a bracket. -/
theorem depth_of_reduce_zero {e e' : Coeff κ} {frame : Frame κ} {stack stack' : List (Frame κ)}
    (h : reduce 0 e stack = (e', frame :: stack')) : depth stack = depth stack' + 1 := by
  induction stack generalizing e with
  | nil => cases h
  | cons f stack ih =>
    rw [reduce] at h
    cases hf : f.precedence? with
    | none =>
      rw [hf] at h
      cases h
      exact depth_cons_bracket hf _
    | some n =>
      rw [hf] at h
      rw [depth_cons_open hf, ih h]

/-- Whether an error points at the first token that no sentence goes on with. -/
def Halts (s : Shape) (ts : List PlacedToken) (error : ParseError) : Prop :=
  ∃ before t after s', ts = before ++ t :: after ∧ error.position? = some t.start ∧
    s.run (before.map (·.token)) = some s' ∧ s'.step t.token = none

/-- Whether a result agrees with the tokens that were read for it from a shape. -/
def Verdict (s : Shape) (ts : List PlacedToken) : Except ParseError (Coeff κ) → Prop
  | .ok _ => Ends s (ts.map (·.token))
  | .error (.unknownFunction _) => True
  | .error (.unexpectedEnd _) =>
    (∃ s', s.run (ts.map (·.token)) = some s') ∧ ¬ Ends s (ts.map (·.token))
  | .error error => Halts s ts error

theorem Halts.here {s : Shape} {t : PlacedToken} (h : s.step t.token = none)
    (rest : List PlacedToken) {error : ParseError} (herror : error.position? = some t.start) :
    Halts s (t :: rest) error :=
  ⟨[], t, rest, s, rfl, herror, rfl, h⟩

theorem verdict_cons {s s' : Shape} {t : PlacedToken} (h : s.step t.token = some s')
    {rest : List PlacedToken} {result : Except ParseError (Coeff κ)}
    (hv : Verdict s' rest result) : Verdict s (t :: rest) result := by
  have hrun (us : List Token) : s.run (t.token :: us) = s'.run us := by
    rw [Shape.run_cons, h, Option.bind_some]
  have hends : Ends s ((t :: rest).map (·.token)) ↔ Ends s' (rest.map (·.token)) := by
    rw [Ends, Ends, List.map_cons, hrun]
  have hhalts {error : ParseError} (hv : Halts s' rest error) : Halts s (t :: rest) error := by
    obtain ⟨before, u, after, s'', rfl, hposition, hbefore, hu⟩ := hv
    exact ⟨t :: before, u, after, s'', rfl, hposition, (hrun _).trans hbefore, hu⟩
  cases result with
  | ok e => exact hends.mpr hv
  | error error =>
    cases error with
    | unknownFunction => trivial
    | unexpectedEnd =>
      obtain ⟨⟨s'', hs''⟩, hnot⟩ := hv
      exact ⟨⟨s'', (hrun _).trans hs''⟩, fun hends' => hnot (hends.mp hends')⟩
    | invalidToken | unexpectedToken | trailingInput => exact hhalts hv

/-- The spot of a place. A name behind it matters only in front of an opening bracket. -/
inductive Place.At : Place κ → Spot → List PlacedToken → Prop where
  | operand {ts : List PlacedToken} : At .operand .operand ts
  | behind {e : Coeff κ} {ts : List PlacedToken} : At (.behind e) (.behind none) ts
  | named {e : Coeff κ} {name : String} {ts : List PlacedToken}
    (h : ∀ t ∈ ts.head?, t.token ≠ .lparen) : At (.behind e) (.behind (some name)) ts

theorem Place.At.exists_name {e : Coeff κ} {spot : Spot} {ts : List PlacedToken}
    (h : (Place.behind e).At spot ts) : ∃ name?, spot = .behind name? := by
  cases h with
  | behind | named => exact ⟨_, rfl⟩

theorem Place.At.step {e : Coeff κ} {spot : Spot} {t : PlacedToken} {rest : List PlacedToken}
    (h : (Place.behind e).At spot (t :: rest)) (n : Nat) :
    Shape.step ⟨n, spot⟩ t.token = Shape.step ⟨n, .behind none⟩ t.token := by
  cases h with
  | behind => rfl
  | named hnot => exact step_behind (hnot t rfl)

theorem step_eq_none {n : Nat} {t : Token} (ht : operation? t = none) (h : t = .rparen → n = 0) :
    Shape.step ⟨n, .behind none⟩ t = none := by
  cases t with
  | rparen => rw [h rfl]; rfl
  | imag | pi | float | int | ident | lparen => rfl
  | plus | minus | star | slash | power | caret => cases ht

theorem verdict_readFrom (stack : List (Frame κ)) (place : Place κ) (ts : List PlacedToken)
    {spot : Spot} (hspot : place.At spot ts) :
    Verdict ⟨depth stack, spot⟩ ts (readFrom stack place ts) := by
  fun_induction readFrom stack place ts generalizing spot with
  | case1 stack =>
    cases hspot
    exact ⟨⟨_, rfl⟩, not_ends_operand_nil _⟩
  | case2 stack e e' hreduce =>
    obtain ⟨name?, rfl⟩ := hspot.exists_name
    have hdepth := depth_reduce 0 e stack
    rw [hreduce] at hdepth
    exact ⟨name?, by rw [← hdepth]; rfl⟩
  | case3 stack e hopen =>
    obtain ⟨name?, rfl⟩ := hspot.exists_name
    refine ⟨⟨_, rfl⟩, ?_⟩
    rintro ⟨name?', hends⟩
    cases hreduce : reduce 0 e stack with
    | mk e' stack' =>
      cases stack' with
      | nil => exact hopen e' hreduce
      | cons frame stack' =>
        rw [depth_of_reduce_zero hreduce] at hends
        cases hends
  | case4 _ t _ _ ht ih | case5 _ t _ _ ht ih =>
    cases hspot
    exact verdict_cons (by rw [ht]; rfl) (ih .behind)
  | case6 _ t _ ht ih | case7 _ t _ ht ih =>
    cases hspot
    exact verdict_cons (by rw [ht]; rfl) (ih .behind)
  | case8 _ t _ ht ih | case9 _ t _ ht ih =>
    cases hspot
    exact verdict_cons (by rw [ht]; rfl) (ih .operand)
  | case10 stack t rest ht ih =>
    cases hspot
    rw [depth_cons_bracket rfl] at ih
    exact verdict_cons (by rw [ht]; rfl) (ih .operand)
  | case11 stack t name ht start rest f hf ih =>
    cases hspot
    rw [depth_cons_bracket rfl] at ih
    have hname : Shape.step ⟨depth stack, .operand⟩ t.token =
        some ⟨depth stack, .behind (some name)⟩ := by
      rw [ht]
      rfl
    exact verdict_cons hname (verdict_cons (by simp [Shape.step, hf]) (ih .operand))
  | case12 => trivial
  | case13 stack t name ht rest hnot ih =>
    cases hspot
    refine verdict_cons (by rw [ht]; rfl) (ih (.named fun u hu hparen => ?_))
    obtain ⟨us, rfl⟩ := List.head?_eq_some_iff.mp hu
    exact hnot u.start us (by rw [← hparen])
  | case14 _ t _ hint hfloat himag hpi hminus hplus hparen hident =>
    cases hspot
    refine Halts.here ?_ _ rfl
    cases h : t.token with
    | int n => exact absurd h (hint n)
    | float d => exact absurd h (hfloat d)
    | ident name => exact absurd h (hident name)
    | imag => exact absurd h himag
    | pi => exact absurd h hpi
    | minus => exact absurd h hminus
    | plus => exact absurd h hplus
    | lparen => exact absurd h hparen
    | star | slash | power | caret | rparen => rfl
  | case15 stack t rest e op hop e' stack' hreduce ih =>
    obtain ⟨name?, rfl⟩ := hspot.exists_name
    have hdepth := depth_reduce op.finishes e stack
    rw [hreduce] at hdepth
    exact verdict_cons (Shape.step_operation hop) (hdepth ▸ ih .operand)
  | case16 stack t rest e hop e' hreduce =>
    have hdepth := depth_reduce 0 e stack
    rw [hreduce] at hdepth
    refine Halts.here ?_ _ rfl
    rw [hspot.step]
    exact step_eq_none hop fun _ => hdepth.symm
  | case17 stack t rest e hop e' frame stack' hreduce ht ih =>
    refine verdict_cons ?_ (ih .behind)
    rw [hspot.step, depth_of_reduce_zero hreduce, ht]
    rfl
  | case18 stack t rest e hop e' frame stack' hreduce ht =>
    refine Halts.here ?_ _ rfl
    rw [hspot.step]
    exact step_eq_none hop fun h => absurd h ht

/-! The reader and the grammar -/

theorem verdict_ofTokens (ts : List PlacedToken) :
    Verdict ⟨0, .operand⟩ ts (ofTokens ts : Except ParseError (Coeff κ)) :=
  verdict_readFrom [] .operand ts .operand

/-- The reader recognizes sentences, and reads each as the tree of its derivation. -/
theorem ofTokens_eq_ok {ts : List PlacedToken} {e : Coeff κ} : ofTokens ts = .ok e ↔
    ∃ p : Phrase .expr, p.tokens = ts.map (·.token) ∧ p.tree = e := by
  constructor
  · intro h
    have hends := verdict_ofTokens (κ := κ) ts
    rw [h] at hends
    obtain ⟨p, hp⟩ := exists_phrase_iff.mpr hends
    exact ⟨p, hp, Except.ok.inj ((ofTokens_phrase p hp.symm).symm.trans h)⟩
  · rintro ⟨p, hp, rfl⟩
    exact ofTokens_phrase p hp.symm

/-- Where an error points, the tokens cease to begin a sentence. -/
theorem Halts.not_begins {ts : List PlacedToken} {error : ParseError}
    (h : Halts ⟨0, .operand⟩ ts error) : ∃ before t after, ts = before ++ t :: after ∧
      error.position? = some t.start ∧ Begins (before.map (·.token)) ∧
        ¬ Begins ((before ++ [t]).map (·.token)) := by
  obtain ⟨before, t, after, s, rfl, hposition, hbefore, ht⟩ := h
  refine ⟨before, t, after, rfl, hposition, begins_iff.mpr ⟨s, hbefore⟩, fun hbegins => ?_⟩
  obtain ⟨s', hs'⟩ := begins_iff.mp hbegins
  rw [List.map_append, Shape.run_append, hbefore, Option.bind_some, List.map_singleton,
    Shape.run_cons, ht] at hs'
  cases hs'

theorem begins_of_append {ts us : List Token} (h : Begins (ts ++ us)) : Begins ts :=
  h.imp fun _ hp => (List.prefix_append ts us).trans hp

theorem Halts.not_begins_all {ts : List PlacedToken} {error : ParseError}
    (h : Halts ⟨0, .operand⟩ ts error) : ¬ Begins (ts.map (·.token)) := by
  obtain ⟨before, t, after, rfl, -, -, hnot⟩ := h.not_begins
  rw [List.append_cons, List.map_append]
  exact fun hbegins => hnot (begins_of_append hbegins)

/--
Parsing recognizes its grammar, and reports what is wrong where it shows first. Only a call of an
unknown function is reported as soon as its name is read.
-/
theorem parse_recognizes {text : String} {placed : List PlacedToken}
    (h : PlacedToken.scan text = .ok placed) :
    (∀ e : Coeff κ, parse text = .ok e ↔
      ∃ p : Phrase .expr, p.tokens = placed.map (·.token) ∧ p.tree = e) ∧
    (∀ p q : Phrase .expr, p.tokens = placed.map (·.token) →
      q.tokens = placed.map (·.token) → p = q) ∧
    ∀ error, parse text = (.error error : Except ParseError (Coeff κ)) →
      (∀ name, error ≠ .unknownFunction name) →
        ((∃ expected, error = .unexpectedEnd expected) ↔
          ∃ p : Phrase .expr, placed.map (·.token) <+: p.tokens ∧
            placed.map (·.token) ≠ p.tokens) ∧
        ((∀ expected, error ≠ .unexpectedEnd expected) →
          ∃ before t after, placed = before ++ t :: after ∧
            error.position? = some t.start ∧ Begins (before.map (·.token)) ∧
              ¬ Begins ((before ++ [t]).map (·.token))) := by
  have hparse : (parse text : Except ParseError (Coeff κ)) = ofTokens placed := by
    rw [parse, h]
    rfl
  rw [hparse]
  refine ⟨fun e => ofTokens_eq_ok, fun p q hp hq => tokens_injective (hp.trans hq.symm), ?_⟩
  intro error herror hknown
  have hverdict := verdict_ofTokens (κ := κ) placed
  rw [herror] at hverdict
  cases error with
  | unknownFunction name => exact absurd rfl (hknown name)
  | unexpectedEnd expected =>
    obtain ⟨⟨p, hp⟩, hnot⟩ := hverdict.imp_left begins_iff.mpr
    refine ⟨⟨fun _ => ⟨p, hp, fun heq => ?_⟩, fun _ => ⟨_, rfl⟩⟩, fun hend => absurd rfl (hend _)⟩
    exact hnot (exists_phrase_iff.mp ⟨p, heq.symm⟩)
  | invalidToken | unexpectedToken | trailingInput =>
    refine ⟨⟨by rintro ⟨_, ⟨⟩⟩, fun ⟨p, hp, _⟩ => ?_⟩, fun _ => hverdict.not_begins⟩
    exact absurd ⟨p, hp⟩ hverdict.not_begins_all

theorem parse_recognizes_unclosed :
    PlacedToken.scan "-(x" = .ok [⟨.minus, 0⟩, ⟨.lparen, 1⟩, ⟨.ident "x", 2⟩] ∧
      parse "-(x" =
        (.error (.unexpectedEnd .closing) : Except ParseError (Coeff ComplexDouble)) ∧
        ∃ p : Phrase .expr, [.minus, .lparen, .ident "x"] <+: p.tokens ∧
          [.minus, .lparen, .ident "x"] ≠ p.tokens := by
  have hscan : PlacedToken.scan "-(x" = .ok [⟨.minus, 0⟩, ⟨.lparen, 1⟩, ⟨.ident "x", 2⟩] := by
    cbv
  have herror : parse "-(x" =
      (.error (.unexpectedEnd .closing) : Except ParseError (Coeff ComplexDouble)) := by
    rw [parse, hscan]
    rfl
  have hknown : ∀ name, ParseError.unexpectedEnd .closing ≠ .unknownFunction name := by
    intro name h
    cases h
  exact ⟨hscan, herror, ((parse_recognizes hscan).2.2 _ herror hknown).1.mp ⟨_, rfl⟩⟩

end Coeff

end SpinBoson
