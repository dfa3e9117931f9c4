import SpinBoson.Coeff.Parser
import SpinBoson.Proofs.Numerals

/-!
Scanning text piece by piece: what tokens a piece is read as, whatever stands around it, as long as
no word or numeral runs over its end.
-/
namespace SpinBoson

/-- The token of an operation between two operands. -/
def Coeff.Op.token : Coeff.Op → Token
  | add => .plus
  | sub => .minus
  | mul => .star
  | div => .slash
  | pow => .power

namespace Lexeme

/-- The tokens of some text; text that is none counts as well. -/
def tokens? (cs : List Char) : List (Option Token) :=
  (scanFrom 0 cs).map (·.token?)

/-- Where the text starts has no influence on its tokens. -/
theorem map_scanFrom (start : Nat) (cs : List Char) :
    (scanFrom start cs).map (·.token?) = tokens? cs := by
  suffices ∀ start' : Nat, (scanFrom start cs).map (·.token?) =
      (scanFrom start' cs).map (·.token?) from this 0
  fun_induction scanFrom start cs with
  | case1 start =>
    intro start'
    rw [scanFrom]
  | case2 start c rest h ih =>
    intro start'
    rw [ih (start' + 1), scanFrom, if_pos h]
  | case3 start c rest h token? length hfirst text stop ih =>
    intro start'
    rw [scanFrom, if_neg h, hfirst]
    simp only [List.map_cons]
    rw [ih]

theorem tokens?_nil : tokens? [] = [] := by
  rw [tokens?, scanFrom]
  rfl

theorem tokens?_blank {c : Char} (h : Token.isBlank c = true) (rest : List Char) :
    tokens? (c :: rest) = tokens? rest := by
  rw [tokens?, scanFrom, if_pos h, map_scanFrom]

theorem tokens?_cons {c : Char} (h : Token.isBlank c = false) {rest : List Char}
    {token? : Option Token} {length : Nat} (hfirst : Token.first c rest = (token?, length)) :
    tokens? (c :: rest) = token? :: tokens? (rest.drop (length - 1)) := by
  rw [tokens?, scanFrom, if_neg (by simp [h]), hfirst]
  simp only [List.map_cons, map_scanFrom]

/-- Whether characters are read as some tokens wherever no word or numeral can go on. -/
def Spells (cs : List Char) (ts : List Token) : Prop :=
  ∀ rest, Token.Boundary rest → tokens? (cs ++ rest) = ts.map some ++ tokens? rest

variable {cs ds : List Char} {ts us : List Token}

theorem Spells.append (h : Spells cs ts) (h' : Spells ds us)
    (hboundary : ∀ rest, Token.Boundary (ds ++ rest)) : Spells (cs ++ ds) (ts ++ us) := by
  intro rest hrest
  rw [List.append_assoc, h _ (hboundary rest), h' rest hrest, List.map_append, List.append_assoc]

theorem Spells.blank (h : Spells cs ts) : Spells (' ' :: cs) ts := by
  intro rest hrest
  rw [List.cons_append, tokens?_blank rfl, h rest hrest]

/-- A character that is a token by itself. -/
theorem Spells.symbol {c : Char} {t : Token} (hblank : Token.isBlank c = false)
    (hc : ∀ rest, Token.first c (cs ++ rest) = (some t, 1)) (h : Spells cs ts) :
    Spells (c :: cs) (t :: ts) := by
  intro rest hrest
  rw [List.cons_append, tokens?_cons hblank (hc rest), Nat.sub_self, List.drop_zero, h rest hrest]
  rfl

theorem spells_nil : Spells [] [] :=
  fun _ _ => rfl

theorem Spells.lparen (h : Spells cs ts) : Spells ('(' :: cs) (.lparen :: ts) :=
  h.symbol rfl fun _ => rfl

theorem Spells.minus (h : Spells cs ts) : Spells ('-' :: cs) (.minus :: ts) :=
  h.symbol rfl fun _ => rfl

/-- What stands in parentheses ends where these are closed. -/
theorem Spells.closed (h : Spells cs ts) : Spells (cs ++ [')']) (ts ++ [.rparen]) := by
  refine h.append (spells_nil.symbol rfl fun _ => rfl) fun rest => ?_
  rintro c ⟨⟩
  exact ⟨rfl, by decide⟩

theorem Spells.operation (op : Coeff.Op) (h : Spells cs ts) (h' : Spells ds us) :
    Spells (cs ++ ' ' :: (op.sign.toList ++ ' ' :: ds)) (ts ++ op.token :: us) := by
  refine h.append ?_ fun rest => ?_
  · cases op with
    | add | sub | div => exact (h'.blank.symbol rfl fun _ => rfl).blank
    | mul => exact (h'.blank.symbol rfl fun _ => rfl).blank
    | pow =>
      refine Spells.blank fun rest hrest => ?_
      have hfirst : Token.first '*' ('*' :: (' ' :: ds ++ rest)) = (some .power, 2) := rfl
      change tokens? ('*' :: '*' :: (' ' :: ds ++ rest)) = _
      rw [tokens?_cons rfl hfirst]
      exact congrArg _ (h'.blank rest hrest)
  · rintro c ⟨⟩
    exact ⟨rfl, by decide⟩

theorem spells_word {word : String} {c : Char} (hword : word.toList = c :: cs)
    (hc : Token.isWordStart c = true) (hcs : ∀ d ∈ cs, Token.isWordChar d = true) :
    Spells word.toList [.ofWord word] := by
  intro rest hrest
  have hlongest : (cs ++ rest).takeWhile Token.isWordChar = cs :=
    takeWhile_append_of_stop hcs fun d hd => (hrest d hd).1
  have hblank := Token.isBlank_of_isWordChar (Token.isWordChar_of_isWordStart hc)
  have hfirst : Token.first c (cs ++ rest) = (some (.ofWord word), (c :: cs).length) := by
    simp only [Token.first, hc, if_true, hlongest]
    rw [← hword, String.ofList_toList]
  rw [hword, List.cons_append, tokens?_cons hblank hfirst, List.length_cons, Nat.add_sub_cancel,
    List.drop_left]
  rfl

theorem spells_numeral {x : Double} (hx : x.isFinite = true)
    (hlimit : x.abs < 18446744073709551616) :
    Spells x.numeral.positional.toList [x.numeral.token] := by
  intro rest hrest
  obtain ⟨c, cs, hcs, hc⟩ := x.numeral.exists_positional
  have hnumber := Double.number_numeral hx hlimit hrest
  rw [hcs, List.cons_append] at hnumber
  have hblank := Token.isBlank_of_isWordChar (Token.isWordChar_of_isDigit hc)
  have hfirst := (Token.first_of_isDigit hc (cs ++ rest)).trans hnumber
  rw [hcs, List.cons_append, tokens?_cons hblank hfirst, List.length_cons, Nat.add_sub_cancel,
    List.drop_left]
  rfl

end Lexeme

/-- Text that spells tokens is scanned as these. -/
theorem PlacedToken.exists_scan {text : String} {ts : List Token}
    (h : Lexeme.Spells text.toList ts) :
    ∃ placed, PlacedToken.scan text = .ok placed ∧ placed.map (·.token) = ts := by
  have hscan : (Lexeme.scan text).map (·.token?) = ts.map some := by
    have hend := h [] nofun
    rwa [List.append_nil, Lexeme.tokens?_nil, List.append_nil] at hend
  rw [scan]
  clear h
  generalize Lexeme.scan text = ls at hscan ⊢
  induction ls generalizing ts with
  | nil =>
    obtain rfl := List.map_eq_nil_iff.mp hscan.symm
    exact ⟨[], rfl, rfl⟩
  | cons l ls ih =>
    obtain ⟨t, ts, rfl, ht, hts⟩ := List.map_eq_cons_iff.mp hscan.symm
    obtain ⟨placed, hplaced, htokens⟩ := ih hts.symm
    refine ⟨⟨t, l.start⟩ :: placed, ?_, by rw [List.map_cons, htokens]⟩
    rw [List.mapM_cons, hplaced, show l.token? = some t from ht.symm]
    rfl

end SpinBoson
