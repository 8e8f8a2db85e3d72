import SequentProver.Proofs.ByteScan
import SequentProver.Proofs.TokenwiseReading

/-! # Complaints point into the text

    A complaint about a text comes with a byte offset.  It is the end of the
    text, the start of one of its tokens, or the start of the character that
    starts no token; so it always falls between two characters. -/

namespace SequentProver.Parser

open Token (tokenize Layout Spelling)

variable {α : Type} {text : String} {ts : List Lexeme} {offset : Nat} {complaint : Complaint}

/-- Every text is a layout up to its end, or up to a character that starts no
    token. -/
theorem tokenize_cases (text : String) :
    ∃ l : Layout,
      (l.text = text ∧ tokenize text = .ok (l.lexemes 0)) ∨
      ∃ c rest, l.text ++ String.ofList (c :: rest) = text ∧ Text.isBlank c = false ∧
        Token.atFront? c rest = none ∧
        tokenize text = .error (l.text.utf8ByteSize, .unexpectedCharacter c) := by
  obtain ⟨l, ⟨htext, hscan⟩ | ⟨c, rest, htext, hblank, hfront, hscan⟩⟩ :=
    Token.scan_cases 0 text.toList
  · exact ⟨l, .inl ⟨(String.toList_inj.mp htext).symm, hscan⟩⟩
  · refine ⟨l, .inr ⟨c, rest, String.toList_inj.mp ?_, hblank, hfront, ?_⟩⟩
    · rw [String.toList_append, String.toList_ofList, htext]
    · rwa [Nat.zero_add] at hscan

/-- The tokens of a text, with the blanks between them, are the text. -/
theorem exists_layout_of_tokenize (h : tokenize text = .ok ts) :
    ∃ l : Layout, l.text = text ∧ l.lexemes 0 = ts := by
  obtain ⟨l, ⟨htext, hok⟩ | ⟨c, rest, -, -, -, herror⟩⟩ := tokenize_cases text
  · cases hok.symm.trans h
    exact ⟨l, htext, rfl⟩
  · cases herror.symm.trans h

/-! ## Where complaints point -/

/-- The places of a text that a complaint can be about. -/
inductive PointsAt (text : String) : Nat → Complaint → Prop
  | theEnd (complaint : Complaint) : PointsAt text text.utf8ByteSize complaint
  | token {ts : List Lexeme} {x : Lexeme} (htext : tokenize text = .ok ts) (hx : x ∈ ts)
      (complaint : Complaint) : PointsAt text x.offset complaint
  | character {l : Layout} {c : Char} {rest : List Char}
      (htext : l.text ++ String.ofList (c :: rest) = text) (hblank : Text.isBlank c = false)
      (hnone : ∀ t s, Spelling t s → ¬ s.toList <+: c :: rest) :
      PointsAt text l.text.utf8ByteSize (.unexpectedCharacter c)

/-- A complaint points between two characters. -/
theorem PointsAt.isValid (h : PointsAt text offset complaint) :
    String.Pos.Raw.IsValid text ⟨offset⟩ := by
  cases h with
  | theEnd => exact String.Pos.Raw.isValid_rawEndPos
  | token htext hx =>
      obtain ⟨l, rfl, rfl⟩ := exists_layout_of_tokenize htext
      obtain ⟨before, spelling, after, hsplit, hoffset, -⟩ := Layout.exists_of_mem_lexemes hx
      rw [hsplit, hoffset, Nat.zero_add]
      exact Token.isValid_append before (spelling ++ after)
  | character htext =>
      subst htext
      exact Token.isValid_append _ _

/-- What is left of the tokens starts at one of them, or at the end. -/
theorem pointsAt_offsetOf (h : tokenize text = .ok ts) (k : Nat) (complaint : Complaint) :
    PointsAt text (offsetOf text (ts.drop k)) complaint := by
  cases hrest : ts.drop k with
  | nil => exact .theEnd complaint
  | cons x rest =>
      have hx : x ∈ ts.drop k := hrest ▸ List.mem_cons_self
      exact .token h (List.mem_of_mem_drop hx) complaint

/-- A reader that sees tokens only complains about a place of the text. -/
theorem exists_pointsAt_of_readWhole {reader : (ts : List Lexeme) → Reading α ts}
    (hreader : ∀ n, SteadyBelow n reader) {e : FormulaError}
    (h : readWhole reader text = .error e) :
    ∃ offset complaint, e = .unreadable offset complaint ∧ PointsAt text offset complaint := by
  obtain ⟨l, ⟨-, htokens⟩ | ⟨c, rest, htext, hblank, hfront, htokens⟩⟩ := tokenize_cases text
  · obtain ⟨k, complaint, rfl⟩ := readWhole_eq_error hreader htokens h
    exact ⟨_, complaint, rfl, pointsAt_offsetOf htokens k complaint⟩
  · rw [readWhole, htokens] at h
    cases h
    exact ⟨_, _, rfl, .character htext hblank fun t s hs => hs.not_prefix_of_atFront? hfront⟩

/-- Scanning by byte positions never slices inside a character.  The offsets
    of the tokens strictly increase, with nothing but blanks between the
    spellings.  Every complaint of the three readings is about the end of the
    text, a token of it, or the character that starts no token: always a
    position between two characters. -/
theorem complaints_point_into_text (text : String) :
    RunsTo (Token.scanTurn text) ([], 0) (tokenize text) ∧
      (∀ ts, tokenize text = .ok ts →
        ts.Pairwise (fun a b => a.offset < b.offset) ∧
          ∃ l : Layout, l.text = text ∧ l.lexemes 0 = ts) ∧
      ∀ e, Pred.parse text = .error e ∨ Expr.parse text = .error e ∨ Ty.parse text = .error e →
        ∃ offset complaint, e = .unreadable offset complaint ∧
          PointsAt text offset complaint ∧
          String.Pos.Raw.IsValid text ⟨offset⟩ ∧ offset ≤ text.utf8ByteSize := by
  refine ⟨Token.runsTo_tokenize text, fun ts hts => ?_, fun e he => ?_⟩
  · obtain ⟨l, htext, rfl⟩ := exists_layout_of_tokenize hts
    exact ⟨Layout.pairwise_offset 0 l, l, htext, rfl⟩
  -- the three readers complain in one way, since each is steady
  · have hplace : ∃ offset complaint, e = .unreadable offset complaint ∧
        PointsAt text offset complaint := by
      rcases he with hpred | hexpr | hty
      · exact exists_pointsAt_of_readWhole steady_predicate hpred
      · exact exists_pointsAt_of_readWhole steady_expression hexpr
      · exact exists_pointsAt_of_readWhole steady_ty hty
    obtain ⟨offset, complaint, rfl, hpoints⟩ := hplace
    exact ⟨offset, complaint, rfl, hpoints, hpoints.isValid, hpoints.isValid.le_rawEndPos⟩

/-- A relation without its right side, a bracket that is not closed, and a
    character of no token, behind characters of several bytes. -/
theorem complaints_behind_wide_characters :
    (Pred.parse "x ≥ ∧" = .error (.unreadable 6 .expectedExpression) ∧
        PointsAt "x ≥ ∧" 6 .expectedExpression) ∧
      (Expr.parse "(− x" = .error (.unreadable 6 .expectedClosing) ∧
        PointsAt "(− x" 6 .expectedClosing) ∧
      Ty.parse "ℙ(ℤ) €" = .error (.unreadable 9 (.unexpectedCharacter '€')) ∧
        PointsAt "ℙ(ℤ) €" 9 (.unexpectedCharacter '€') := by
  have hpred : Pred.parse "x ≥ ∧" = .error (.unreadable 6 .expectedExpression) := by
    decide +kernel
  have hexpr : Expr.parse "(− x" = .error (.unreadable 6 .expectedClosing) := by
    decide +kernel
  have hty : Ty.parse "ℙ(ℤ) €" = .error (.unreadable 9 (.unexpectedCharacter '€')) := by
    decide +kernel
  refine ⟨⟨hpred, ?_⟩, ⟨hexpr, ?_⟩, hty, ?_⟩
  · obtain ⟨_, _, heq, hpoints, -⟩ := (complaints_point_into_text "x ≥ ∧").2.2 _ (.inl hpred)
    cases heq
    exact hpoints
  · obtain ⟨_, _, heq, hpoints, -⟩ := (complaints_point_into_text "(− x").2.2 _ (.inr (.inl hexpr))
    cases heq
    exact hpoints
  · obtain ⟨_, _, heq, hpoints, -⟩ := (complaints_point_into_text "ℙ(ℤ) €").2.2 _ (.inr (.inr hty))
    cases heq
    exact hpoints

end SequentProver.Parser
