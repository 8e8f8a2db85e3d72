import Mathlib.Data.List.Chain
import SequentProver.Proofs.TextLayout
import SequentProver.Proofs.TokenwiseReading

/-! # The spelling of a token does not matter

    A style chooses one spelling for every token; the mathematical and the
    ASCII style are two of them.  A text that is laid out with blanks between
    its spellings is cut into the tokens that were spelled, so every text
    with the same tokens is read alike: to the same value, or to the same
    complaint. -/

namespace SequentProver

namespace Token

variable {t : Token} {s : String}

/-! ## Styles -/

/-- One spelling for every token.  Names and numerals stand for themselves,
    and the other tokens are spelled as the tables say. -/
structure Style where
  spell : Token → String
  ident : ∀ name, spell (.ident name) = name
  int : ∀ digits, spell (.int digits) = digits
  listed : ((symbols ++ keywords).all fun entry =>
    (spell entry.2, entry.2) ∈ symbols ++ keywords) = true

namespace Style

/-- Symbols of mathematics where a token has one. -/
def mathematical : Style where
  spell
    | .ident name => name
    | .int digits => digits
    | .opening => "("
    | .closing => ")"
    | .comma => ","
    | .colon => ":"
    | .dot => "·"
    | .top => "⊤"
    | .bottom => "⊥"
    | .not => "¬"
    | .connective .and => "∧"
    | .connective .or => "∨"
    | .connective .imp => "⇒"
    | .connective .iff => "⇔"
    | .quantifier .universal => "∀"
    | .quantifier .existential => "∃"
    | .relation .eq => "="
    | .relation .notEq => "≠"
    | .relation .lt => "<"
    | .relation .le => "≤"
    | .relation .gt => ">"
    | .relation .ge => "≥"
    | .plus => "+"
    | .minus => "−"
    | .times => "∗"
    | .bool true => "TRUE"
    | .bool false => "FALSE"
    | .intType => "ℤ"
    | .boolType => "BOOL"
    | .powerSet => "ℙ"
    | .cross => "×"
  ident _ := rfl
  int _ := rfl
  listed := by decide

/-- ASCII symbols, and words where there is no symbol. -/
def ascii : Style where
  spell
    | .ident name => name
    | .int digits => digits
    | .opening => "("
    | .closing => ")"
    | .comma => ","
    | .colon => ":"
    | .dot => "."
    | .top => "true"
    | .bottom => "false"
    | .not => "not"
    | .connective .and => "/\\"
    | .connective .or => "\\/"
    | .connective .imp => "=>"
    | .connective .iff => "<=>"
    | .quantifier .universal => "forall"
    | .quantifier .existential => "exists"
    | .relation .eq => "="
    | .relation .notEq => "/="
    | .relation .lt => "<"
    | .relation .le => "<="
    | .relation .gt => ">"
    | .relation .ge => ">="
    | .plus => "+"
    | .minus => "-"
    | .times => "*"
    | .bool true => "TRUE"
    | .bool false => "FALSE"
    | .intType => "Z"
    | .boolType => "BOOL"
    | .powerSet => "POW"
    | .cross => "**"
  ident _ := rfl
  int _ := rfl
  listed := by decide

/-- A token that can be spelled at all can be spelled in every style. -/
theorem spelling (style : Style) (h : Spelling t s) : Spelling t (style.spell t) := by
  have hlisted : ∀ {s : String}, (s, t) ∈ symbols ++ keywords → Spelling t (style.spell t) := by
    intro s hs
    have hmem := List.all_eq_true.mp style.listed (s, t) hs
    rcases List.mem_append.mp (of_decide_eq_true hmem) with hsymbol | hkeyword
    · exact .symbol hsymbol
    · exact .keyword hkeyword
  cases h with
  | symbol hentry => exact hlisted (List.mem_append_left _ hentry)
  | keyword hentry => exact hlisted (List.mem_append_right _ hentry)
  | name hname =>
      rw [style.ident]
      exact .name hname
  | digits hne hdigits =>
      rw [style.int]
      exact .digits hne hdigits

end Style

/-! ## Respelled layouts -/

/-- The same token, spelled in a style. -/
def Item.respell (style : Style) : Item → Item
  | .blank c h => .blank c h
  | .word token _ h => .word token (style.spell token) (style.spelling h)

@[simp] theorem Item.token?_respell (style : Style) (item : Item) :
    (item.respell style).token? = item.token? := by
  cases item <;> rfl

namespace Layout

variable {l : Layout} (style : Style)

/-- The same blanks and the same tokens, spelled in a style. -/
def respell (l : Layout) : Layout := l.map (Item.respell style)

/-- So the tokens of a layout stay. -/
@[simp] theorem tokens_respell : (respell style l).tokens = l.tokens := by
  rw [respell, tokens, tokens, List.filterMap_map]
  congr 1
  funext item
  exact item.token?_respell style

/-- Blanks stay, so items are as far apart as before. -/
theorem Spaced.respell (h : l.Spaced) : (respell style l).Spaced := by
  rw [Layout.respell, Spaced, List.isChain_map]
  simp only [Item.token?_respell]
  exact h

end Layout

end Token

/-! ## Reading -/

namespace Parser

/-- The three readings of two texts have the same verdicts. -/
structure ReadAlike (text text' : String) : Prop where
  predicate : SameVerdict (Pred.parse text) (Pred.parse text')
  expression : SameVerdict (Expr.parse text) (Expr.parse text')
  ty : SameVerdict (Ty.parse text) (Ty.parse text')

/-- Texts with the same tokens are read alike. -/
theorem readAlike_of_sameTokens {text text' : String} {ts ts' : List Lexeme}
    (h : Token.tokenize text = .ok ts) (h' : Token.tokenize text' = .ok ts')
    (hsame : SameTokens ts ts') : ReadAlike text text' where
  predicate := sameVerdict_of_sameTokens steady_predicate h h' hsame
  expression := sameVerdict_of_sameTokens steady_expression h h' hsame
  ty := sameVerdict_of_sameTokens steady_ty h h' hsame

end Parser

namespace Token.Layout

open SequentProver.Parser (SameTokens ReadAlike readAlike_of_sameTokens)

/-- A layout with blanks between its spellings is cut into its tokens, each at
    the byte where its spelling starts.  Every text with these tokens is read
    as the layout is; so the ASCII and the mathematical style say the same. -/
theorem spellings_read_alike {l : Layout} (h : l.Spaced) :
    tokenize l.text = .ok (l.lexemes 0) ∧
      (∀ text ts, tokenize text = .ok ts → ts.map Lexeme.token = l.tokens →
        ReadAlike text l.text) ∧
      ReadAlike (l.respell .ascii).text (l.respell .mathematical).text := by
  have htokens : ∀ {l : Layout}, l.Spaced → tokenize l.text = .ok (l.lexemes 0) :=
    fun hspaced => scan_layout 0 hspaced
  refine ⟨htokens h, fun text ts htext hts => ?_, ?_⟩
  · refine readAlike_of_sameTokens htext (htokens h) ?_
    rw [SameTokens, map_token_lexemes]
    exact hts
  · refine readAlike_of_sameTokens (htokens (h.respell .ascii)) (htokens (h.respell .mathematical)) ?_
    rw [SameTokens, map_token_lexemes, map_token_lexemes, tokens_respell, tokens_respell]

/-- A bounded variable, with blanks of one and of three bytes. -/
def bounded : Layout :=
  [.word (.quantifier .universal) "∀" (.symbol (by decide)), .blank ' ' (by decide),
    .word (.ident "x'") "x'" (.name (by decide)), .blank '\t' (by decide),
    .word .colon ":" (.symbol (by decide)), .blank '\u2003' (by decide), .blank ' ' (by decide),
    .word .intType "Z" (.keyword (by decide)), .blank ' ' (by decide),
    .word .dot "." (.symbol (by decide)), .blank ' ' (by decide),
    .word (.ident "x'") "x'" (.name (by decide)), .blank ' ' (by decide),
    .word (.relation .ge) ">=" (.symbol (by decide)), .blank ' ' (by decide),
    .word (.int "007") "007" (.digits (by decide) (by decide))]

/-- The blanks of the example keep its words apart. -/
theorem spaced_bounded : bounded.Spaced := by
  simp [bounded, Spaced, Item.token?]

theorem bounded_read_alike :
    bounded.text = "∀ x'\t:\u2003 Z . x' >= 007" ∧
      (respell .ascii bounded).text = "forall x'\t:\u2003 Z . x' >= 007" ∧
      (respell .mathematical bounded).text = "∀ x'\t:\u2003 ℤ · x' ≥ 007" ∧
      tokenize "∀ x'\t:\u2003 Z . x' >= 007" =
        .ok [⟨0, .quantifier .universal⟩, ⟨4, .ident "x'"⟩, ⟨7, .colon⟩, ⟨12, .intType⟩, ⟨14, .dot⟩,
          ⟨16, .ident "x'"⟩, ⟨19, .relation .ge⟩, ⟨22, .int "007"⟩] ∧
      ReadAlike "forall x'\t:\u2003 Z . x' >= 007" "∀ x'\t:\u2003 ℤ · x' ≥ 007" := by
  obtain ⟨htokens, -, hstyles⟩ := spellings_read_alike spaced_bounded
  exact ⟨by decide, by decide, by decide, htokens, hstyles⟩

end Token.Layout

end SequentProver
