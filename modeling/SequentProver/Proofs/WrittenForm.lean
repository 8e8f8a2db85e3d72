import SequentProver.Proofs.WellNamed

/-! # The tokens of a written formula

    `tokens` follows the written form of a formula, token by token, with
    the same parentheses.  The text of a well-named formula is cut into
    these tokens, whatever stands behind it, as long as that does not
    lengthen a word at its end: no two tokens that are written side by
    side fuse into one. -/

namespace SequentProver

/-! ## Tokens of formulas -/

/-- Tokens in parentheses when the condition holds. -/
def Token.wrapped (needed : Bool) (ts : List Token) : List Token :=
  if needed then .opening :: (ts ++ [.closing]) else ts

open Token (wrapped)

/-- The tokens of the written form of a type. -/
def Ty.tokens : Ty → List Token
  | .integer => [.intType]
  | .boolean => [.boolType]
  | .given name => [.ident name]
  | .powerSet elem => .powerSet :: wrapped true elem.tokens
  | .product left right => wrapped left.isProduct left.tokens ++ .cross :: right.tokens

/-- The tokens of a binder. -/
def TypedName.tokens (n : TypedName) : List Token := .ident n.name :: .colon :: n.ty.tokens

/-- Declarations with a comma between neighbours. -/
def TypedName.tokensAmong : List TypedName → List Token
  | [] => []
  | [n] => n.tokens
  | n :: rest => n.tokens ++ .comma :: tokensAmong rest

/-- The tokens of the written form of an expression. -/
def Expr.tokens : Expr → List Token
  | .ident name => [.ident name]
  | .integer value =>
    (if value.toInt < 0 then [.minus] else []) ++ [.int (Nat.repr value.toInt.natAbs)]
  | .bool value => [.bool value]
  | .neg inner => .minus :: wrapped (inner.precedence < 3 || inner.isInteger) inner.tokens
  | .arith op left right =>
    wrapped (left.precedence < op.precedence) left.tokens ++
      op.token :: wrapped (right.precedence ≤ op.precedence) right.tokens

/-- The tokens of the written form of a predicate. -/
def Pred.tokens : Pred → List Token
  | .top => [.top]
  | .bottom => [.bottom]
  | .not inner => .not :: wrapped (inner.precedence < 5) inner.tokens
  | .binary op left right =>
    wrapped (op.guardsLeft left.precedence) left.tokens ++
      .connective op :: wrapped (op.guardsRight right.precedence) right.tokens
  | .relation op left right => left.tokens ++ .relation op :: right.tokens
  | .quantified quantifier decls body =>
    .quantifier quantifier :: (TypedName.tokensAmong decls ++ .dot :: body.tokens)

/-! ## Texts that spell their tokens -/

namespace Token

/-- In front of every text that does not go on with a name, `text` is cut
    into `ts`. -/
def SpelledBy (ts : List Token) (text : String) : Prop :=
  ∀ rest us, Ends isNameChar rest → Spells rest us → Spells (text.toList ++ rest) (ts ++ us)

section SpelledBy

variable {t : Token} {ts us : List Token} {s a b : String}

/-- A text that is spelled by tokens is cut into them. -/
theorem SpelledBy.spells (h : SpelledBy ts a) : Spells a.toList ts := by
  simpa using h [] [] ends_nil .nil

/-- Two texts spell their tokens one after the other when the second does
    not go on with a name. -/
theorem SpelledBy.append {c : Char} {cs : List Char} (ha : SpelledBy ts a)
    (hb : SpelledBy us b) (hchars : b.toList = c :: cs) (hc : isNameChar c = false) :
    SpelledBy (ts ++ us) (a ++ b) := by
  intro rest vs hrest hspells
  rw [String.toList_append, List.append_assoc, List.append_assoc]
  refine ha _ _ ?_ (hb _ _ hrest hspells)
  simpa [hchars] using hc

/-- A blank in front does not matter. -/
theorem SpelledBy.blank (ha : SpelledBy ts a) : SpelledBy ts (" " ++ a) := by
  intro rest vs hrest hspells
  rw [String.toList_append, List.append_assoc]
  exact .blank (by decide) (ha _ _ hrest hspells)

/-- A symbol in front of a text that does not lengthen it. -/
theorem SpelledBy.symbol (hentry : (s, t) ∈ symbols)
    (hfree : ∀ rest, Ends (fuses s) (a.toList ++ rest)) (ha : SpelledBy ts a) :
    SpelledBy (t :: ts) (s ++ a) := by
  intro rest vs hrest hspells
  rw [String.toList_append, List.append_assoc, List.cons_append]
  exact .symbol hentry (hfree rest) (ha _ _ hrest hspells)

/-- A symbol that is part of no longer one. -/
theorem spelledBy_symbol (hentry : (s, t) ∈ symbols) (hfree : ∀ c, fuses s c = false) :
    SpelledBy [t] s := by
  intro rest vs hrest hspells
  exact .symbol hentry (fun c _ => hfree c) hspells

/-- A word, be it reserved or a name. -/
theorem spelledBy_word (hshape : isNameShaped s.toList = true) : SpelledBy [ofWord s] s :=
  fun _ _ hrest hspells => .word hshape hrest hspells

theorem spelledBy_name (h : isValidName s = true) : SpelledBy [.ident s] s := by
  obtain ⟨hshape, hreserved⟩ := isValidName_iff.mp h
  rw [← ofWord_eq_ident.mpr ⟨rfl, hreserved⟩]
  exact spelledBy_word hshape

/-- A symbol between two texts, the second of which does not lengthen it. -/
theorem SpelledBy.joined (ha : SpelledBy ts a) (hentry : (s, t) ∈ symbols)
    (hfree : ∀ rest, Ends (fuses s) (b.toList ++ rest)) (hb : SpelledBy us b) :
    SpelledBy (ts ++ t :: us) (a ++ s ++ b) := by
  obtain ⟨c, cs, hs, -, hc⟩ := exists_of_mem_symbols hentry
  rw [String.append_assoc]
  have hchars : (s ++ b).toList = c :: (cs ++ b.toList) := by
    rw [String.toList_append, hs, List.cons_append]
  exact ha.append (hb.symbol hentry hfree) hchars hc

theorem SpelledBy.parenthesized (ha : SpelledBy ts a) (needed : Bool) :
    SpelledBy (wrapped needed ts) (Expr.parenthesized needed a) := by
  cases needed with
  | false => exact ha
  | true =>
    have hclosing : SpelledBy [.closing] ")" := spelledBy_symbol (by decide) fun _ => rfl
    have hclosed : SpelledBy (ts ++ [.closing]) (a ++ ")") := ha.append hclosing rfl rfl
    have hopened : SpelledBy (.opening :: (ts ++ [.closing])) ("(" ++ (a ++ ")")) :=
      hclosed.symbol (by decide) fun _ _ _ => rfl
    rwa [← String.append_assoc] at hopened

end SpelledBy

end Token

open Token (SpelledBy fuses Ends spelledBy_symbol spelledBy_name spelledBy_word)

/-! ## Types -/

/-- The text of a type is spelled by its tokens. -/
theorem Ty.spelledBy {t : Ty} (h : t.wellNamed = true) : SpelledBy t.tokens t.text := by
  induction t with
  | integer => exact spelledBy_symbol (by decide) fun _ => rfl
  | boolean => exact @spelledBy_word "BOOL" (by decide)
  | given name => exact spelledBy_name h
  | powerSet elem ih =>
      have hsplit : (Ty.powerSet elem).text = "ℙ" ++ ("(" ++ elem.text ++ ")") := by
        rw [Ty.text, ← String.append_assoc, ← String.append_assoc]
        rfl
      rw [hsplit]
      exact ((ih h).parenthesized true).symbol (by decide) fun _ _ _ => rfl
  | product left right ihl ihr =>
      obtain ⟨hl, hr⟩ := Bool.and_eq_true_iff.mp h
      exact ((ihl hl).parenthesized left.isProduct).joined (by decide) (fun _ _ _ => rfl)
        (ihr hr)

theorem TypedName.spelledBy {n : TypedName} (h : n.wellNamed = true) :
    SpelledBy n.tokens (n.name ++ ":" ++ n.ty.text) := by
  obtain ⟨hname, hty⟩ := Bool.and_eq_true_iff.mp h
  exact (spelledBy_name hname).joined (by decide) (fun _ _ _ => rfl) (Ty.spelledBy hty)

theorem TypedName.spelledBy_joined {ns : List TypedName} (hne : ns ≠ [])
    (h : ns.all TypedName.wellNamed = true) :
    SpelledBy (tokensAmong ns) (Text.joined "," (ns.map fun d => d.name ++ ":" ++ d.ty.text)) := by
  induction ns with
  | nil => exact absurd rfl hne
  | cons n ns ih =>
      obtain ⟨hn, hns⟩ := Bool.and_eq_true_iff.mp h
      cases ns with
      | nil => exact TypedName.spelledBy hn
      | cons m ns =>
          exact (TypedName.spelledBy hn).joined (by decide) (fun _ _ _ => rfl)
            (ih (by simp) hns)

/-! ## Expressions -/

/-- Numbers are written in digits. -/
theorem isDigit_of_mem_repr {n : Nat} {c : Char} (hc : c ∈ (Nat.repr n).toList) :
    Text.isDigit c = true := by
  rw [Nat.repr_eq_ofList_toDigits, String.toList_ofList] at hc
  have hdigit := Nat.isDigit_of_mem_toDigits (by decide) (by decide) hc
  simp only [Char.isDigit, ge_iff_le, Bool.and_eq_true, decide_eq_true_eq,
    UInt32.le_iff_toNat_le] at hdigit
  exact isDigit_iff.mpr hdigit

theorem exists_repr (n : Nat) : ∃ c cs, (Nat.repr n).toList = c :: cs := by
  rw [Nat.repr_eq_ofList_toDigits, String.toList_ofList]
  exact List.exists_cons_of_ne_nil Nat.toDigits_ne_nil

/-- A number is spelled by its digits. -/
theorem spelledBy_repr (n : Nat) : SpelledBy [.int (Nat.repr n)] (Nat.repr n) := by
  intro rest us hrest hspells
  have hdigits : (Nat.repr n).toList.all Text.isDigit = true := by
    rw [List.all_eq_true]
    intro c hc
    exact isDigit_of_mem_repr hc
  have hne : Nat.repr n ≠ "" := by
    obtain ⟨c, cs, hchars⟩ := exists_repr n
    intro hempty
    rw [hempty] at hchars
    cases hchars
  exact .digits hne hdigits (hrest.mono fun _ => isNameChar_of_isDigit) hspells

/-- The text of an expression is spelled by its tokens, by induction. -/
theorem Expr.spelledBy {e : Expr} (h : e.wellNamed = true) : SpelledBy e.tokens e.text := by
  induction e with
  | ident name => exact spelledBy_name h
  | integer value =>
      simp only [Expr.tokens, Expr.text, Text.decimal]
      -- a negative number is written with the sign in front of its digits
      split
      · exact (spelledBy_repr _).symbol (by decide) fun _ _ _ => rfl
      · exact spelledBy_repr _
  | bool value =>
      cases value with
      | true => exact @spelledBy_word "TRUE" (by decide)
      | false => exact @spelledBy_word "FALSE" (by decide)
  -- the sign fuses with nothing that can follow it
  | neg inner ih => exact ((ih h).parenthesized _).symbol (by decide) fun _ _ _ => rfl
  | arith op left right ihl ihr =>
      obtain ⟨hl, hr⟩ := Bool.and_eq_true_iff.mp h
      have hentry : (op.symbol, op.token) ∈ Token.symbols := by cases op <;> decide
      have hfree : ∀ c, fuses op.symbol c = false := by
        intro c
        cases op <;> rfl
      exact ((ihl hl).parenthesized _).joined hentry (fun _ c _ => hfree c)
        ((ihr hr).parenthesized _)

/-- A character of a name is no inner character of a symbol. -/
theorem not_mem_innerChars {c : Char} (h : isNameChar c = true) : c ∉ Token.innerChars := by
  intro hc
  rw [Token.isNameChar_eq_false hc] at h
  cases h

/-- The text of an expression does not start with an inner character of a
    symbol. -/
theorem Expr.text_head {e : Expr} (h : e.wellNamed = true) :
    ∃ c cs, e.text.toList = c :: cs ∧ c ∉ Token.innerChars := by
  -- what is written first is the leftmost leaf, or the parenthesis around it
  induction e with
  | ident name =>
      obtain ⟨hshape, -⟩ := isValidName_iff.mp h
      show ∃ c cs, name.toList = c :: cs ∧ _
      cases hchars : name.toList with
      | nil => simp [hchars, isNameShaped] at hshape
      | cons c cs =>
          rw [hchars, isNameShaped, Bool.and_eq_true] at hshape
          exact ⟨c, cs, rfl, not_mem_innerChars (isNameChar_of_isNameStart hshape.1)⟩
  | integer value =>
      simp only [Expr.text, Text.decimal]
      split
      · rw [String.toList_append]
        exact ⟨'-', _, rfl, by decide⟩
      · obtain ⟨c, cs, hchars⟩ := exists_repr value.toInt.natAbs
        have hdigit := isDigit_of_mem_repr (hchars ▸ List.mem_cons_self)
        exact ⟨c, cs, hchars, not_mem_innerChars (isNameChar_of_isDigit hdigit)⟩
  | bool value => cases value <;> exact ⟨_, _, rfl, by decide⟩
  | neg inner ih =>
      rw [Expr.text, String.toList_append]
      exact ⟨'−', _, rfl, by decide⟩
  | arith op left right ihl ihr =>
      obtain ⟨hl, hr⟩ := Bool.and_eq_true_iff.mp h
      obtain ⟨c, cs, htext, hc⟩ := ihl hl
      rw [Expr.text, String.append_assoc, String.toList_append, parenthesized]
      split
      · rw [String.append_assoc, String.toList_append]
        exact ⟨'(', _, rfl, by decide⟩
      · rw [htext]
        exact ⟨c, _, rfl, hc⟩

/-! ## Predicates -/

/-- The text of a predicate is spelled by its tokens, by induction. -/
theorem Pred.spelledBy {p : Pred} (h : p.wellNamed = true) : SpelledBy p.tokens p.text := by
  induction p with
  | top => exact spelledBy_symbol (by decide) fun _ => rfl
  | bottom => exact spelledBy_symbol (by decide) fun _ => rfl
  | not inner ih => exact ((ih h).parenthesized _).symbol (by decide) fun _ _ _ => rfl
  | binary op left right ihl ihr =>
      obtain ⟨hl, hr⟩ := Bool.and_eq_true_iff.mp h
      have hentry : (op.symbol, Token.connective op) ∈ Token.symbols := by cases op <;> decide
      have hfree : ∀ c, fuses op.symbol c = false := by
        intro c
        cases op <;> rfl
      have hright := ((ihr hr).parenthesized (op.guardsRight right.precedence)).blank.symbol hentry
        fun _ c _ => hfree c
      simp only [Pred.text, String.append_assoc]
      exact ((ihl hl).parenthesized _).append hright.blank (by simp; exact ⟨rfl, rfl⟩) rfl
  | relation op left right =>
      obtain ⟨hl, hr⟩ := Bool.and_eq_true_iff.mp h
      have hentry : (op.symbol, Token.relation op) ∈ Token.symbols := by cases op <;> decide
      -- what could fuse with the relation is the first character of the right side
      obtain ⟨c, cs, htext, hc⟩ := Expr.text_head hr
      refine (Expr.spelledBy hl).joined hentry (fun rest => ?_) (Expr.spelledBy hr)
      rw [htext, List.cons_append, Token.ends_cons]
      exact Token.fuses_eq_false (by cases op <;> decide) hc
  | quantified q decls body ih =>
      simp only [Pred.wellNamed, Bool.and_eq_true, Bool.not_eq_true', List.isEmpty_eq_false_iff]
        at h
      obtain ⟨⟨hne, hdecls⟩, hbody⟩ := h
      have hentry : (q.symbol, Token.quantifier q) ∈ Token.symbols := by cases q <;> decide
      have hfree : ∀ c, fuses q.symbol c = false := by
        intro c
        cases q <;> rfl
      -- the declarations, the dot and the body read as one text behind the quantifier
      have hscope : SpelledBy (TypedName.tokensAmong decls ++ .dot :: body.tokens)
          (Text.joined "," (decls.map fun d => d.name ++ ":" ++ d.ty.text) ++ "·" ++ body.text) :=
        (TypedName.spelledBy_joined hne hdecls).joined (by decide) (fun _ _ _ => rfl) (ih hbody)
      rw [String.append_assoc] at hscope
      rw [Pred.text, String.append_assoc, String.append_assoc]
      exact hscope.symbol hentry fun _ c _ => hfree c

end SequentProver
