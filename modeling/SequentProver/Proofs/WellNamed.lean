import SequentProver.Proofs.Reading
import SequentProver.Proofs.Spelling

/-! # Formulas with valid names

    A formula is well named when every name in it is valid and every
    quantifier declares something.  What is read from a text is well
    named: the only names among its tokens are words that have the shape
    of a name and are not reserved, and the readers take their names from
    there. -/

namespace SequentProver

/-! ## Well-named formulas -/

/-- Every given set in the type has a valid name. -/
def Ty.wellNamed : Ty → Bool
  | .integer => true
  | .boolean => true
  | .given name => isValidName name
  | .powerSet elem => elem.wellNamed
  | .product left right => left.wellNamed && right.wellNamed

/-- The name and the type of a declaration are valid. -/
def TypedName.wellNamed (n : TypedName) : Bool := isValidName n.name && n.ty.wellNamed

/-- Every identifier in the expression is valid. -/
def Expr.wellNamed : Expr → Bool
  | .ident name => isValidName name
  | .integer _ => true
  | .bool _ => true
  | .neg inner => inner.wellNamed
  | .arith _ left right => left.wellNamed && right.wellNamed

/-- Every name in the predicate is valid, and every quantifier has a
    declaration. -/
def Pred.wellNamed : Pred → Bool
  | .top => true
  | .bottom => true
  | .not inner => inner.wellNamed
  | .binary _ left right => left.wellNamed && right.wellNamed
  | .relation _ left right => left.wellNamed && right.wellNamed
  | .quantified _ decls body =>
    !decls.isEmpty && decls.all TypedName.wellNamed && body.wellNamed

/-! ## Names among the tokens -/

/-- Every name among the tokens is valid. -/
def ValidNames (ts : List Lexeme) : Prop :=
  ∀ l ∈ ts, ∀ name, l.token = .ident name → isValidName name = true

section ValidNames

variable {us : List Token} {ts rest : List Lexeme}

/-- Names behind a valid one are valid. -/
theorem ValidNames.of_cons {l : Lexeme} (h : ValidNames (l :: ts)) : ValidNames ts :=
  fun l' hl => h l' (List.mem_cons_of_mem _ hl)

/-- What follows some tokens has valid names, too. -/
theorem ValidNames.after (h : ValidNames ts) (hleads : Parser.Leads us ts rest) :
    ValidNames rest := by
  induction us generalizing ts with
  | nil =>
      cases hleads
      exact h
  | cons u us ih =>
      obtain ⟨offset, mid, rfl, hmid⟩ := hleads
      exact ih h.of_cons hmid

theorem ValidNames.front {name : String} (h : ValidNames ts)
    (hleads : Parser.Leads (.ident name :: us) ts rest) : isValidName name = true := by
  obtain ⟨offset, mid, rfl, -⟩ := hleads
  exact h ⟨offset, .ident name⟩ List.mem_cons_self name rfl

end ValidNames

/-- The scanner makes valid names only. -/
theorem validNames_of_tokenize {text : String} {ts : List Lexeme}
    (h : Token.tokenize text = .ok ts) : ValidNames ts :=
  fun _ hl _ hname => Token.isValidName_of_scan h hl hname

namespace Parser

/-! ## Types -/

mutual

/-- A type that is read is well named. -/
theorem wellNamed_of_ty {ts rest : List Lexeme} {v : Ty} (hts : ValidNames ts)
    (h : Reads (ty ts) v rest) : v.wellNamed = true ∧ ValidNames rest := by
  obtain ⟨left, mid, hleft, hcase⟩ := reads_ty.mp h
  have hlt := hleft.length_lt
  obtain ⟨hnamed, hmid⟩ := wellNamed_of_typeAtom hts hleft
  rcases hcase with ⟨-, rfl, rfl⟩ | ⟨more, right, hcross, hright, rfl⟩
  · exact ⟨hnamed, hmid⟩
  · have hlt' := hcross.length_lt
    obtain ⟨hnamed', hrest⟩ := wellNamed_of_ty (hmid.after hcross) hright
    exact ⟨by simp [Ty.wellNamed, hnamed, hnamed'], hrest⟩
termination_by ts.length * 2 + 1

theorem wellNamed_of_typeAtom {ts rest : List Lexeme} {v : Ty} (hts : ValidNames ts)
    (h : Reads (typeAtom ts) v rest) : v.wellNamed = true ∧ ValidNames rest := by
  rcases reads_typeAtom.mp h with ⟨hleads, rfl⟩ | ⟨hleads, rfl⟩ | ⟨name, hleads, rfl⟩ |
    ⟨opened, elem, mid, hopened, helem, hclosed, rfl⟩ | ⟨opened, mid, hopened, helem, hclosed⟩
  · exact ⟨rfl, hts.after hleads⟩
  · exact ⟨rfl, hts.after hleads⟩
  · exact ⟨hts.front hleads, hts.after hleads⟩
  · have hlt := hopened.length_lt
    obtain ⟨hnamed, hmid⟩ := wellNamed_of_ty (hts.after hopened) helem
    exact ⟨hnamed, hmid.after hclosed⟩
  · have hlt := hopened.length_lt
    obtain ⟨hnamed, hmid⟩ := wellNamed_of_ty (hts.after hopened) helem
    exact ⟨hnamed, hmid.after hclosed⟩
termination_by ts.length * 2

end

/-- Declarations that are read are well named, and there is one at least. -/
theorem wellNamed_of_declarations {ts rest : List Lexeme} {v : List TypedName}
    (hts : ValidNames ts) (h : Reads (declarations ts) v rest) :
    v ≠ [] ∧ v.all TypedName.wellNamed = true ∧ ValidNames rest := by
  obtain ⟨name, more, type, mid, hname, htype, hcase⟩ := reads_declarations.mp h
  have hlt := hname.length_lt
  have hlt' := htype.length_lt
  have hvalid := hts.front hname
  obtain ⟨hnamed, hmid⟩ := wellNamed_of_ty (hts.after hname) htype
  rcases hcase with ⟨-, rfl, rfl⟩ | ⟨next, others, hcomma, hothers, rfl⟩
  · exact ⟨by simp, by simp [TypedName.wellNamed, hvalid, hnamed], hmid⟩
  · have hlt'' := hcomma.length_lt
    obtain ⟨-, hall, hrest⟩ := wellNamed_of_declarations (hmid.after hcomma) hothers
    refine ⟨by simp, ?_, hrest⟩
    simpa [TypedName.wellNamed, hvalid, hnamed] using hall
termination_by ts.length

/-! ## Expressions -/

mutual

/-- An expression that is read is well named. -/
theorem wellNamed_of_expression {ts rest : List Lexeme} {v : Expr} (hts : ValidNames ts)
    (h : Reads (expression ts) v rest) : v.wellNamed = true ∧ ValidNames rest := by
  obtain ⟨first, mid, hfirst, hmore⟩ := reads_expression.mp h
  have hlt := hfirst.length_lt
  obtain ⟨hnamed, hmid⟩ := wellNamed_of_term hts hfirst
  exact wellNamed_of_moreTerms hmid hnamed hmore
termination_by ts.length * 5 + 4

/-- The loop over terms keeps names valid. -/
theorem wellNamed_of_moreTerms {ts rest : List Lexeme} {left v : Expr} (hts : ValidNames ts)
    (hleft : left.wellNamed = true) (h : Reads (moreTerms left ts) v rest) :
    v.wellNamed = true ∧ ValidNames rest := by
  rcases reads_moreTerms.mp h with ⟨-, rfl, rfl⟩ | ⟨op, more, right, mid, -, hop, hright, hmore⟩
  · exact ⟨hleft, hts⟩
  · have hlt := hop.length_lt
    have hlt' := hright.length_lt
    obtain ⟨hnamed, hmid⟩ := wellNamed_of_term (hts.after hop) hright
    exact wellNamed_of_moreTerms hmid (by simp [Expr.wellNamed, hleft, hnamed]) hmore
termination_by ts.length * 5 + 3

theorem wellNamed_of_term {ts rest : List Lexeme} {v : Expr} (hts : ValidNames ts)
    (h : Reads (term ts) v rest) : v.wellNamed = true ∧ ValidNames rest := by
  obtain ⟨first, mid, hfirst, hmore⟩ := reads_term.mp h
  have hlt := hfirst.length_lt
  obtain ⟨hnamed, hmid⟩ := wellNamed_of_factor hts hfirst
  exact wellNamed_of_moreFactors hmid hnamed hmore
termination_by ts.length * 5 + 2

/-- The loop over factors keeps names valid. -/
theorem wellNamed_of_moreFactors {ts rest : List Lexeme} {left v : Expr} (hts : ValidNames ts)
    (hleft : left.wellNamed = true) (h : Reads (moreFactors left ts) v rest) :
    v.wellNamed = true ∧ ValidNames rest := by
  rcases reads_moreFactors.mp h with ⟨-, rfl, rfl⟩ | ⟨more, right, mid, htimes, hright, hmore⟩
  · exact ⟨hleft, hts⟩
  · have hlt := htimes.length_lt
    have hlt' := hright.length_lt
    obtain ⟨hnamed, hmid⟩ := wellNamed_of_factor (hts.after htimes) hright
    exact wellNamed_of_moreFactors hmid (by simp [Expr.wellNamed, hleft, hnamed]) hmore
termination_by ts.length * 5 + 1

theorem wellNamed_of_factor {ts rest : List Lexeme} {v : Expr} (hts : ValidNames ts)
    (h : Reads (factor ts) v rest) : v.wellNamed = true ∧ ValidNames rest := by
  rcases reads_factor.mp h with ⟨digits, hleads, n, -, -, -, rfl⟩ |
    ⟨digits, hleads, n, -, -, -, rfl⟩ | ⟨more, inner, hminus, -, hinner, rfl⟩ |
    ⟨name, hleads, rfl⟩ | ⟨value, hleads, rfl⟩ | ⟨opened, mid, hopened, hinner, hclosed⟩
  · exact ⟨rfl, hts.after hleads⟩
  · exact ⟨rfl, hts.after hleads⟩
  · have hlt := hminus.length_lt
    obtain ⟨hnamed, hrest⟩ := wellNamed_of_factor (hts.after hminus) hinner
    exact ⟨hnamed, hrest⟩
  · exact ⟨hts.front hleads, hts.after hleads⟩
  · exact ⟨rfl, hts.after hleads⟩
  · have hlt := hopened.length_lt
    obtain ⟨hnamed, hmid⟩ := wellNamed_of_expression (hts.after hopened) hinner
    exact ⟨hnamed, hmid.after hclosed⟩
termination_by ts.length * 5

end

/-! ## Predicates -/

/-- A relation that is read is well named. -/
theorem wellNamed_of_relation {ts rest : List Lexeme} {v : Pred} (hts : ValidNames ts)
    (h : Reads (relation ts) v rest) : v.wellNamed = true ∧ ValidNames rest := by
  obtain ⟨left, mid, hleft, op, more, right, hop, hright, rfl⟩ := reads_relation.mp h
  obtain ⟨hnamed, hmid⟩ := wellNamed_of_expression hts hleft
  obtain ⟨hnamed', hrest⟩ := wellNamed_of_expression (hmid.after hop) hright
  exact ⟨by simp [Pred.wellNamed, hnamed, hnamed'], hrest⟩

mutual

/-- A predicate that is read is well named. -/
theorem wellNamed_of_predicate {ts rest : List Lexeme} {v : Pred} (hts : ValidNames ts)
    (h : Reads (predicate ts) v rest) : v.wellNamed = true ∧ ValidNames rest := by
  obtain ⟨left, mid, hleft, hcase⟩ := reads_predicate.mp h
  have hlt := hleft.length_lt
  obtain ⟨hnamed, hmid⟩ := wellNamed_of_implication hts hleft
  rcases hcase with ⟨-, rfl, rfl⟩ | ⟨more, right, hiff, hright, rfl⟩
  · exact ⟨hnamed, hmid⟩
  · have hlt' := hiff.length_lt
    obtain ⟨hnamed', hrest⟩ := wellNamed_of_implication (hmid.after hiff) hright
    exact ⟨by simp [Pred.wellNamed, hnamed, hnamed'], hrest⟩
termination_by ts.length * 8 + 7

theorem wellNamed_of_implication {ts rest : List Lexeme} {v : Pred} (hts : ValidNames ts)
    (h : Reads (implication ts) v rest) : v.wellNamed = true ∧ ValidNames rest := by
  obtain ⟨left, mid, hleft, hcase⟩ := reads_implication.mp h
  have hlt := hleft.length_lt
  obtain ⟨hnamed, hmid⟩ := wellNamed_of_disjunction hts hleft
  rcases hcase with ⟨-, rfl, rfl⟩ | ⟨more, right, himp, hright, rfl⟩
  · exact ⟨hnamed, hmid⟩
  · have hlt' := himp.length_lt
    obtain ⟨hnamed', hrest⟩ := wellNamed_of_implication (hmid.after himp) hright
    exact ⟨by simp [Pred.wellNamed, hnamed, hnamed'], hrest⟩
termination_by ts.length * 8 + 6

theorem wellNamed_of_disjunction {ts rest : List Lexeme} {v : Pred} (hts : ValidNames ts)
    (h : Reads (disjunction ts) v rest) : v.wellNamed = true ∧ ValidNames rest := by
  obtain ⟨first, mid, hfirst, hmore⟩ := reads_disjunction.mp h
  have hlt := hfirst.length_lt
  obtain ⟨hnamed, hmid⟩ := wellNamed_of_conjunction hts hfirst
  exact wellNamed_of_moreDisjuncts hmid hnamed hmore
termination_by ts.length * 8 + 5

/-- The loop over disjuncts keeps names valid. -/
theorem wellNamed_of_moreDisjuncts {ts rest : List Lexeme} {left v : Pred} (hts : ValidNames ts)
    (hleft : left.wellNamed = true) (h : Reads (moreDisjuncts left ts) v rest) :
    v.wellNamed = true ∧ ValidNames rest := by
  rcases reads_moreDisjuncts.mp h with ⟨-, rfl, rfl⟩ | ⟨more, right, mid, hor, hright, hmore⟩
  · exact ⟨hleft, hts⟩
  · have hlt := hor.length_lt
    have hlt' := hright.length_lt
    obtain ⟨hnamed, hmid⟩ := wellNamed_of_conjunction (hts.after hor) hright
    exact wellNamed_of_moreDisjuncts hmid (by simp [Pred.wellNamed, hleft, hnamed]) hmore
termination_by ts.length * 8 + 4

/-- A conjunction that is read is well named. -/
theorem wellNamed_of_conjunction {ts rest : List Lexeme} {v : Pred} (hts : ValidNames ts)
    (h : Reads (conjunction ts) v rest) : v.wellNamed = true ∧ ValidNames rest := by
  obtain ⟨first, mid, hfirst, hmore⟩ := reads_conjunction.mp h
  have hlt := hfirst.length_lt
  obtain ⟨hnamed, hmid⟩ := wellNamed_of_unary hts hfirst
  exact wellNamed_of_moreConjuncts hmid hnamed hmore
termination_by ts.length * 8 + 3

/-- The loop over conjuncts keeps names valid. -/
theorem wellNamed_of_moreConjuncts {ts rest : List Lexeme} {left v : Pred} (hts : ValidNames ts)
    (hleft : left.wellNamed = true) (h : Reads (moreConjuncts left ts) v rest) :
    v.wellNamed = true ∧ ValidNames rest := by
  rcases reads_moreConjuncts.mp h with ⟨-, rfl, rfl⟩ | ⟨more, right, mid, hand, hright, hmore⟩
  · exact ⟨hleft, hts⟩
  · have hlt := hand.length_lt
    have hlt' := hright.length_lt
    obtain ⟨hnamed, hmid⟩ := wellNamed_of_unary (hts.after hand) hright
    exact wellNamed_of_moreConjuncts hmid (by simp [Pred.wellNamed, hleft, hnamed]) hmore
termination_by ts.length * 8 + 2

/-- An operand that is read is well named; a quantifier declares something. -/
theorem wellNamed_of_unary {ts rest : List Lexeme} {v : Pred} (hts : ValidNames ts)
    (h : Reads (unary ts) v rest) : v.wellNamed = true ∧ ValidNames rest := by
  rcases reads_unary.mp h with ⟨more, inner, hnot, hinner, rfl⟩ |
    ⟨q, more, decls, mid, hq, hdecls, start, body, hdot, hbody, rfl⟩ | ⟨-, -, hatom⟩
  · have hlt := hnot.length_lt
    obtain ⟨hnamed, hrest⟩ := wellNamed_of_unary (hts.after hnot) hinner
    exact ⟨hnamed, hrest⟩
  · have hlt := hq.length_lt
    have hlt' := hdecls.length_lt
    have hlt'' := hdot.length_lt
    obtain ⟨hne, hall, hmid⟩ := wellNamed_of_declarations (hts.after hq) hdecls
    obtain ⟨hnamed, hrest⟩ := wellNamed_of_predicate (hmid.after hdot) hbody
    refine ⟨?_, hrest⟩
    simp only [Pred.wellNamed, hall, hnamed, Bool.and_true, Bool.not_eq_true',
      List.isEmpty_eq_false_iff]
    exact hne
  · exact wellNamed_of_atom hts hatom
termination_by ts.length * 8 + 1

theorem wellNamed_of_atom {ts rest : List Lexeme} {v : Pred} (hts : ValidNames ts)
    (h : Reads (atom ts) v rest) : v.wellNamed = true ∧ ValidNames rest := by
  rcases reads_atom.mp h with ⟨hleads, rfl⟩ | ⟨hleads, rfl⟩ | ⟨-, -, hrelation⟩ |
    ⟨-, opened, mid, hopened, hinner, hclosed⟩
  · exact ⟨rfl, hts.after hleads⟩
  · exact ⟨rfl, hts.after hleads⟩
  · exact wellNamed_of_relation hts hrelation
  · have hlt := hopened.length_lt
    obtain ⟨hnamed, hmid⟩ := wellNamed_of_predicate (hts.after hopened) hinner
    exact ⟨hnamed, hmid.after hclosed⟩
termination_by ts.length * 8

end

/-! ## Whole texts -/

/-- A text is read when its tokens are, all of them. -/
theorem readWhole_eq_ok {α : Type} {reader : (ts : List Lexeme) → Reading α ts} {text : String}
    {v : α} :
    readWhole reader text = .ok v ↔
      ∃ ts, Token.tokenize text = .ok ts ∧ Reads (reader ts) v [] := by
  rw [readWhole]
  cases Token.tokenize text with
  | error e => simp
  | ok ts =>
    simp only [Except.ok.injEq, exists_eq_left']
    cases reader ts with
    | error e => simp
    | ok parsed =>
      obtain ⟨value, _ | ⟨l, more⟩, shorter⟩ := parsed
      · simp
      · simp

end Parser

/-- A type that was read is well named. -/
theorem Ty.wellNamed_of_parse {text : String} {t : Ty} (h : Ty.parse text = .ok t) :
    t.wellNamed = true := by
  obtain ⟨ts, htokens, hreads⟩ := Parser.readWhole_eq_ok.mp h
  exact (Parser.wellNamed_of_ty (validNames_of_tokenize htokens) hreads).1

/-- An expression that was read is well named. -/
theorem Expr.wellNamed_of_parse {text : String} {e : Expr} (h : Expr.parse text = .ok e) :
    e.wellNamed = true := by
  obtain ⟨ts, htokens, hreads⟩ := Parser.readWhole_eq_ok.mp h
  exact (Parser.wellNamed_of_expression (validNames_of_tokenize htokens) hreads).1

/-- A predicate that was read is well named. -/
theorem Pred.wellNamed_of_parse {text : String} {p : Pred} (h : Pred.parse text = .ok p) :
    p.wellNamed = true := by
  obtain ⟨ts, htokens, hreads⟩ := Parser.readWhole_eq_ok.mp h
  exact (Parser.wellNamed_of_predicate (validNames_of_tokenize htokens) hreads).1

end SequentProver
