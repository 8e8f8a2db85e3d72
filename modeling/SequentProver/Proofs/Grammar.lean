import SequentProver.Proofs.Reading

/-! # The grammar of formulas

    A derivation is over lexemes but looks at their tokens only:
    `Derives admits l ts v rest` says that `ts` starts with a phrase of kind
    `l`, that the phrase reads as `v`, and that `rest` stands after it.  The
    rules are those of the grammar, left recursion included, and a phrase may
    be any that the grammar allows, not only the longest one.  How far the
    body of a quantifier reaches is left to `admits`.

    Route:
    1. types and declarations, and that their readers read exactly the
       phrases that no further component or declaration follows;
    2. expressions: a reader that starts at a phrase goes on behind it as it
       would have gone on from the value of the phrase.  So it reads the
       phrase if nothing follows that could extend it, and else beyond;
    3. predicates: what is read is derived, and no expression ends at the
       parenthesis that closes a predicate. -/

namespace SequentProver

namespace Grammar

open SequentProver.Parser

/-! ## Types -/

/-- The two kinds of phrases for types. -/
inductive TypeLevel where
  | whole
  | component

/-- `Ty ::= Y | Y × Ty` and `Y ::= ℤ | BOOL | ident | ℙ ( Ty ) | ( Ty )`. -/
inductive DerivesType : TypeLevel → List Lexeme → Ty → List Lexeme → Prop
  | component {ts rest : List Lexeme} {v : Ty} (h : DerivesType .component ts v rest) :
      DerivesType .whole ts v rest
  | product {ts mid more rest : List Lexeme} {left right : Ty}
      (hleft : DerivesType .component ts left mid) (hsign : Leads [.cross] mid more)
      (hright : DerivesType .whole more right rest) :
      DerivesType .whole ts (.product left right) rest
  | integer {ts rest : List Lexeme} (h : Leads [.intType] ts rest) :
      DerivesType .component ts .integer rest
  | boolean {ts rest : List Lexeme} (h : Leads [.boolType] ts rest) :
      DerivesType .component ts .boolean rest
  | given {ts rest : List Lexeme} {name : String} (h : Leads [.ident name] ts rest) :
      DerivesType .component ts (.given name) rest
  | powerSet {ts opened mid rest : List Lexeme} {elem : Ty}
      (hopened : Leads [.powerSet, .opening] ts opened)
      (helem : DerivesType .whole opened elem mid) (hclosed : Leads [.closing] mid rest) :
      DerivesType .component ts (.powerSet elem) rest
  | parens {ts opened mid rest : List Lexeme} {v : Ty} (hopened : Leads [.opening] ts opened)
      (hinner : DerivesType .whole opened v mid) (hclosed : Leads [.closing] mid rest) :
      DerivesType .component ts v rest

mutual

/-- What is read as a type is a phrase for it. -/
theorem derives_of_ty {ts rest : List Lexeme} {v : Ty} (h : Reads (ty ts) v rest) :
    DerivesType .whole ts v rest := by
  obtain ⟨left, mid, hleft, hrest⟩ := reads_ty.mp h
  have hlt := hleft.length_lt
  have hderives := derives_of_typeAtom hleft
  rcases hrest with ⟨-, rfl, rfl⟩ | ⟨more, right, hsign, hright, rfl⟩
  · exact .component hderives
  · have hlt' := hsign.length_lt
    exact .product hderives hsign (derives_of_ty hright)
termination_by ts.length * 2 + 1

/-- What is read as a component of a type is a phrase for it. -/
theorem derives_of_typeAtom {ts rest : List Lexeme} {v : Ty} (h : Reads (typeAtom ts) v rest) :
    DerivesType .component ts v rest := by
  rcases reads_typeAtom.mp h with ⟨hleads, rfl⟩ | ⟨hleads, rfl⟩ | ⟨name, hleads, rfl⟩ |
    ⟨opened, elem, mid, hopened, helem, hclosed, rfl⟩ | ⟨opened, mid, hopened, hinner, hclosed⟩
  · exact .integer hleads
  · exact .boolean hleads
  · exact .given hleads
  · have hlt := hopened.length_lt
    exact .powerSet hopened (derives_of_ty helem) hclosed
  · have hlt := hopened.length_lt
    exact .parens hopened (derives_of_ty hinner) hclosed
termination_by ts.length * 2

end

/-- The reader of a kind reads the phrase; a whole type must not be followed
    by a product sign. -/
def TypeLevel.Read : TypeLevel → List Lexeme → Ty → List Lexeme → Prop
  | .whole, ts, v, rest => front? rest ≠ some .cross → Reads (ty ts) v rest
  | .component, ts, v, rest => Reads (typeAtom ts) v rest

/-- A phrase for a type is read, unless a product sign follows. -/
theorem DerivesType.read {l : TypeLevel} {ts rest : List Lexeme} {v : Ty}
    (h : DerivesType l ts v rest) : l.Read ts v rest := by
  induction h with
  | @component ts rest v _ ih =>
      intro hrest
      exact reads_ty.mpr ⟨v, rest, ih, .inl ⟨hrest, rfl, rfl⟩⟩
  | @product ts mid more rest left right _ hsign _ ihl ihr =>
      intro hrest
      exact reads_ty.mpr ⟨left, mid, ihl, .inr ⟨more, right, hsign, ihr hrest, rfl⟩⟩
  | integer h => exact reads_typeAtom.mpr (.inl ⟨h, rfl⟩)
  | boolean h => exact reads_typeAtom.mpr (.inr (.inl ⟨h, rfl⟩))
  | given h => exact reads_typeAtom.mpr (.inr (.inr (.inl ⟨_, h, rfl⟩)))
  | powerSet hopened _ hclosed ih =>
      have helem := ih (by simp [hclosed.front?])
      exact reads_typeAtom.mpr (.inr (.inr (.inr (.inl
        ⟨_, _, _, hopened, helem, hclosed, rfl⟩))))
  | parens hopened _ hclosed ih =>
      have hinner := ih (by simp [hclosed.front?])
      exact reads_typeAtom.mpr (.inr (.inr (.inr (.inr ⟨_, _, hopened, hinner, hclosed⟩))))

/-! ## Declarations -/

/-- `decl (, decl)*` with `decl ::= ident : Ty`. -/
inductive DerivesDecls : List Lexeme → List TypedName → List Lexeme → Prop
  | one {ts more rest : List Lexeme} {name : String} {type : Ty}
      (hname : Leads [.ident name, .colon] ts more) (htype : DerivesType .whole more type rest) :
      DerivesDecls ts [⟨name, type⟩] rest
  | cons {ts more mid next rest : List Lexeme} {name : String} {type : Ty}
      {others : List TypedName} (hname : Leads [.ident name, .colon] ts more)
      (htype : DerivesType .whole more type mid) (hcomma : Leads [.comma] mid next)
      (hothers : DerivesDecls next others rest) : DerivesDecls ts (⟨name, type⟩ :: others) rest

/-- What is read as declarations is a phrase for them. -/
theorem derives_of_declarations {ts rest : List Lexeme} {v : List TypedName}
    (h : Reads (declarations ts) v rest) : DerivesDecls ts v rest := by
  obtain ⟨name, more, type, mid, hname, htype, hrest⟩ := reads_declarations.mp h
  have hlt := hname.length_lt
  have hlt' := htype.length_lt
  rcases hrest with ⟨-, rfl, rfl⟩ | ⟨next, others, hcomma, hothers, rfl⟩
  · exact .one hname (derives_of_ty htype)
  · have hlt'' := hcomma.length_lt
    exact .cons hname (derives_of_ty htype) hcomma (derives_of_declarations hothers)
termination_by ts.length

/-- Declarations are read up to the dot of their quantifier. -/
theorem DerivesDecls.read {ts rest : List Lexeme} {v : List TypedName} (h : DerivesDecls ts v rest)
    (hrest : front? rest = some .dot) : Reads (declarations ts) v rest := by
  induction h with
  | @one ts more rest name type hname htype =>
      have hread := htype.read (by simp [hrest])
      exact reads_declarations.mpr
        ⟨name, more, type, rest, hname, hread, .inl ⟨by simp [hrest], rfl, rfl⟩⟩
  | @cons ts more mid next rest name type others hname htype hcomma _ ih =>
      have hread := htype.read (by simp [hcomma.front?])
      exact reads_declarations.mpr
        ⟨name, more, type, mid, hname, hread, .inr ⟨next, others, hcomma, ih hrest, rfl⟩⟩

/-! ## Expressions -/

/-- The three kinds of phrases for expressions. -/
inductive ExprLevel where
  | sum
  | term
  | factor

/-- `E ::= T | E (+|−) T`, `T ::= F | T ∗ F` and
    `F ::= int | − F | ident | TRUE | FALSE | ( E )`.  A number has to fit in a
    signed word of 64 bits; a minus sign right before it belongs to it. -/
inductive DerivesExpr : ExprLevel → List Lexeme → Expr → List Lexeme → Prop
  | term {ts rest : List Lexeme} {v : Expr} (h : DerivesExpr .term ts v rest) :
      DerivesExpr .sum ts v rest
  | sum {ts mid more rest : List Lexeme} {left right : Expr} {op : ArithOp}
      (hop : op ≠ .mul) (hleft : DerivesExpr .sum ts left mid)
      (hsign : Leads [op.token] mid more) (hright : DerivesExpr .term more right rest) :
      DerivesExpr .sum ts (.arith op left right) rest
  | factor {ts rest : List Lexeme} {v : Expr} (h : DerivesExpr .factor ts v rest) :
      DerivesExpr .term ts v rest
  | product {ts mid more rest : List Lexeme} {left right : Expr}
      (hleft : DerivesExpr .term ts left mid) (hsign : Leads [.times] mid more)
      (hright : DerivesExpr .factor more right rest) :
      DerivesExpr .term ts (.arith .mul left right) rest
  | number {ts rest : List Lexeme} {digits : String} (h : Leads [.int digits] ts rest)
      (hsize : (Text.digitsValue digits.toList : Int) ≤ Int64.maxValue.toInt) :
      DerivesExpr .factor ts (.integer (Int64.ofInt (Text.digitsValue digits.toList))) rest
  | negative {ts rest : List Lexeme} {digits : String} (h : Leads [.minus, .int digits] ts rest)
      (hsize : Int64.minValue.toInt ≤ -(Text.digitsValue digits.toList : Int)) :
      DerivesExpr .factor ts (.integer (Int64.ofInt (-Text.digitsValue digits.toList))) rest
  | neg {ts more rest : List Lexeme} {inner : Expr} (hsign : Leads [.minus] ts more)
      (hfront : ∀ digits, front? more ≠ some (.int digits))
      (hinner : DerivesExpr .factor more inner rest) : DerivesExpr .factor ts (.neg inner) rest
  | ident {ts rest : List Lexeme} {name : String} (h : Leads [.ident name] ts rest) :
      DerivesExpr .factor ts (.ident name) rest
  | bool {ts rest : List Lexeme} {value : Bool} (h : Leads [.bool value] ts rest) :
      DerivesExpr .factor ts (.bool value) rest
  | parens {ts opened mid rest : List Lexeme} {v : Expr} (hopened : Leads [.opening] ts opened)
      (hinner : DerivesExpr .sum opened v mid) (hclosed : Leads [.closing] mid rest) :
      DerivesExpr .factor ts v rest

/-- A number without a sign can only be too large. -/
theorem isLiteral_false {digits : String} {v : Expr} :
    IsLiteral false digits v ↔
      (Text.digitsValue digits.toList : Int) ≤ Int64.maxValue.toInt ∧
        .integer (Int64.ofInt (Text.digitsValue digits.toList)) = v := by
  have hmin : Int64.minValue.toInt ≤ 0 := by decide
  simp only [IsLiteral, Bool.false_eq_true, if_false, exists_eq_left']
  rw [← and_assoc]
  refine and_congr_left fun _ => ?_
  omega

/-- Behind a minus sign it can only be too small. -/
theorem isLiteral_true {digits : String} {v : Expr} :
    IsLiteral true digits v ↔
      Int64.minValue.toInt ≤ -(Text.digitsValue digits.toList : Int) ∧
        .integer (Int64.ofInt (-Text.digitsValue digits.toList)) = v := by
  have hmax : 0 ≤ Int64.maxValue.toInt := by decide
  simp only [IsLiteral, if_true, exists_eq_left']
  rw [← and_assoc]
  refine and_congr_left fun _ => ?_
  omega

mutual

/-- What is read as an expression is a phrase for it. -/
theorem derives_of_expression {ts rest : List Lexeme} {v : Expr}
    (h : Reads (expression ts) v rest) : DerivesExpr .sum ts v rest := by
  obtain ⟨first, mid, hfirst, hmore⟩ := reads_expression.mp h
  have hlt := hfirst.length_lt
  exact derives_of_moreTerms (.term (derives_of_term hfirst)) hmore
termination_by ts.length * 5 + 4

/-- The loop extends the phrase to its left. -/
theorem derives_of_moreTerms {start ts rest : List Lexeme} {left v : Expr}
    (hleft : DerivesExpr .sum start left ts) (h : Reads (moreTerms left ts) v rest) :
    DerivesExpr .sum start v rest := by
  rcases reads_moreTerms.mp h with ⟨-, rfl, rfl⟩ | ⟨op, more, right, mid, hop, hsign, hright, hmore⟩
  · exact hleft
  · have hlt := hsign.length_lt
    have hlt' := hright.length_lt
    have hsum : op ≠ .mul := by
      rintro rfl
      cases hop
    exact derives_of_moreTerms (.sum hsum hleft hsign (derives_of_term hright)) hmore
termination_by ts.length * 5 + 3

/-- What is read as a term is a phrase for it. -/
theorem derives_of_term {ts rest : List Lexeme} {v : Expr} (h : Reads (term ts) v rest) :
    DerivesExpr .term ts v rest := by
  obtain ⟨first, mid, hfirst, hmore⟩ := reads_term.mp h
  have hlt := hfirst.length_lt
  exact derives_of_moreFactors (.factor (derives_of_factor hfirst)) hmore
termination_by ts.length * 5 + 2

/-- A loop over factors extends a phrase on its left. -/
theorem derives_of_moreFactors {start ts rest : List Lexeme} {left v : Expr}
    (hleft : DerivesExpr .term start left ts) (h : Reads (moreFactors left ts) v rest) :
    DerivesExpr .term start v rest := by
  rcases reads_moreFactors.mp h with ⟨-, rfl, rfl⟩ | ⟨more, right, mid, hsign, hright, hmore⟩
  · exact hleft
  · have hlt := hsign.length_lt
    have hlt' := hright.length_lt
    exact derives_of_moreFactors (.product hleft hsign (derives_of_factor hright)) hmore
termination_by ts.length * 5 + 1

/-- What is read as a factor is a phrase for it. -/
theorem derives_of_factor {ts rest : List Lexeme} {v : Expr} (h : Reads (factor ts) v rest) :
    DerivesExpr .factor ts v rest := by
  rcases reads_factor.mp h with ⟨digits, hleads, hliteral⟩ | ⟨digits, hleads, hliteral⟩ |
    ⟨more, inner, hsign, hfront, hinner, rfl⟩ | ⟨name, hleads, rfl⟩ | ⟨value, hleads, rfl⟩ |
    ⟨opened, mid, hopened, hinner, hclosed⟩
  · obtain ⟨hsize, rfl⟩ := isLiteral_false.mp hliteral
    exact .number hleads hsize
  · obtain ⟨hsize, rfl⟩ := isLiteral_true.mp hliteral
    exact .negative hleads hsize
  · have hlt := hsign.length_lt
    exact .neg hsign hfront (derives_of_factor hinner)
  · exact .ident hleads
  · exact .bool hleads
  · have hlt := hopened.length_lt
    exact .parens hopened (derives_of_expression hinner) hclosed
termination_by ts.length * 5

end

/-! ## Reading on behind a phrase -/

section Continuation

variable {ts mid more rest r : List Lexeme} {left right v : Expr} {op : ArithOp}

/-- A product goes on if a factor follows. -/
theorem reads_moreFactors_times (hsign : Leads [.times] mid more)
    (hright : Reads (factor more) right rest) :
    Reads (moreFactors left mid) v r ↔ Reads (moreFactors (.arith .mul left right) rest) v r := by
  rw [reads_moreFactors]
  constructor
  · rintro (⟨hstop, -⟩ | ⟨more', right', rest', hsign', hright', hmore⟩)
    · exact absurd hsign.frontStrength hstop
    · obtain rfl := hsign.unique hsign'
      obtain ⟨rfl, rfl⟩ := hright.unique hright'
      exact hmore
  · intro hmore
    exact .inr ⟨more, right, rest, hsign, hright, hmore⟩

/-- A sign of a sum has the strength of sums. -/
theorem frontStrength_sign (hop : op ≠ .mul) (hsign : Leads [op.token] mid more) :
    frontStrength mid = 5 := by
  rw [hsign.frontStrength]
  cases op <;> first | rfl | exact absurd rfl hop

/-- A sum goes on if a term follows. -/
theorem reads_moreTerms_sign (hop : op ≠ .mul) (hsign : Leads [op.token] mid more)
    (hright : Reads (term more) right rest) :
    Reads (moreTerms left mid) v r ↔ Reads (moreTerms (.arith op left right) rest) v r := by
  rw [reads_moreTerms]
  constructor
  · rintro (⟨hstop, -⟩ | ⟨op', more', right', rest', hop', hsign', hright', hmore⟩)
    · exact absurd (frontStrength_sign hop hsign) hstop
    · have htoken : op.token = op'.token :=
        Option.some.inj (hsign.front?.symm.trans hsign'.front?)
      obtain rfl : op = op' := by
        cases op <;> cases op' <;> first | rfl | cases htoken
      obtain rfl := hsign.unique hsign'
      obtain ⟨rfl, rfl⟩ := hright.unique hright'
      exact hmore
  · intro hmore
    refine .inr ⟨op, more, right, rest, ?_, hsign, hright, hmore⟩
    cases op <;> first | rfl | exact absurd rfl hop

/-- The reader of a kind, at a phrase, goes on behind it; behind a sum there
    must be no factor to take. -/
def ExprLevel.Read : ExprLevel → List Lexeme → Expr → List Lexeme → Prop
  | .sum, ts, e, rest => frontStrength rest ≠ 6 →
      ∀ v r, Reads (expression ts) v r ↔ Reads (moreTerms e rest) v r
  | .term, ts, e, rest => ∀ v r, Reads (Parser.term ts) v r ↔ Reads (moreFactors e rest) v r
  | .factor, ts, e, rest => Reads (Parser.factor ts) e rest

/-- A term is read to its end if no factor follows. -/
theorem reads_term_of_read (h : ExprLevel.term.Read ts v rest) (hrest : frontStrength rest ≠ 6) :
    Reads (term ts) v rest :=
  (h v rest).mpr (reads_moreFactors.mpr (.inl ⟨hrest, rfl, rfl⟩))

/-- An expression is read to its end if no term follows. -/
theorem reads_expression_of_read (h : ExprLevel.sum.Read ts v rest)
    (hrest : frontStrength rest < 5) : Reads (expression ts) v rest :=
  (h (by omega) v rest).mpr (reads_moreTerms.mpr (.inl ⟨by omega, rfl, rfl⟩))

/-- A phrase for an expression is read, by induction on the phrase. -/
theorem DerivesExpr.read {l : ExprLevel} (h : DerivesExpr l ts v rest) : l.Read ts v rest := by
  -- sums and products are grouped to the left, the reader loops: a loop goes on from each prefix
  induction h with
  | @term ts rest e _ ih =>
      intro hrest v r
      have hread := reads_term_of_read ih hrest
      rw [reads_expression]
      constructor
      · rintro ⟨first, mid, hfirst, hmore⟩
        obtain ⟨rfl, rfl⟩ := hread.unique hfirst
        exact hmore
      · intro hmore
        exact ⟨e, rest, hread, hmore⟩
  | @sum ts mid more rest left right op hop _ hsign _ ihl ihr =>
      intro hrest v r
      have hfive := frontStrength_sign hop hsign
      rw [ihl (by omega) v r, reads_moreTerms_sign hop hsign (reads_term_of_read ihr hrest)]
  | @factor ts rest e _ ih =>
      intro v r
      rw [reads_term]
      constructor
      · rintro ⟨first, mid, hfirst, hmore⟩
        obtain ⟨rfl, rfl⟩ := Reads.unique ih hfirst
        exact hmore
      · intro hmore
        exact ⟨e, rest, ih, hmore⟩
  | product _ hsign _ ihl ihr =>
      intro v r
      rw [ihl v r, reads_moreFactors_times hsign ihr]
  | number h hsize => exact reads_factor.mpr (.inl ⟨_, h, isLiteral_false.mpr ⟨hsize, rfl⟩⟩)
  | negative h hsize =>
      exact reads_factor.mpr (.inr (.inl ⟨_, h, isLiteral_true.mpr ⟨hsize, rfl⟩⟩))
  | neg hsign hfront _ ih =>
      exact reads_factor.mpr (.inr (.inr (.inl ⟨_, _, hsign, hfront, ih, rfl⟩)))
  | ident h => exact reads_factor.mpr (.inr (.inr (.inr (.inl ⟨_, h, rfl⟩))))
  | bool h => exact reads_factor.mpr (.inr (.inr (.inr (.inr (.inl ⟨_, h, rfl⟩)))))
  | @parens ts opened mid rest v hopened _ hclosed ih =>
      have hfront : frontStrength mid < 5 := by
        rw [hclosed.frontStrength]
        decide
      exact reads_factor.mpr (.inr (.inr (.inr (.inr (.inr
        ⟨_, _, hopened, reads_expression_of_read ih hfront, hclosed⟩)))))

/-- An expression is read as it is derived if nothing follows that could
    extend it. -/
theorem DerivesExpr.reads (h : DerivesExpr .sum ts v rest) (hrest : frontStrength rest < 5) :
    Reads (expression ts) v rest :=
  reads_expression_of_read h.read hrest

/-- In any case it is read at least as far as it is derived. -/
theorem DerivesExpr.length_le {e : Expr} (h : DerivesExpr .sum ts e rest)
    (hread : Reads (expression ts) v r) : r.length ≤ rest.length := by
  cases h with
  | term hterm =>
      obtain ⟨first, mid, hfirst, hmore⟩ := reads_expression.mp hread
      have hmid := ((hterm.read first mid).mp hfirst).length_lt
      have hr := hmore.length_lt
      omega
  | @sum _ mid more _ left right op hop hleft hsign hright =>
      have hfive := frontStrength_sign hop hsign
      have hgoes := (hleft.read (by omega) v r).mp hread
      -- the loop goes on at the sign, as its strength is that of a sum
      rcases reads_moreTerms.mp hgoes with ⟨hstop, -⟩ |
        ⟨op', more', right', last, -, hsign', hright', hmore⟩
      · exact absurd hfive hstop
      · obtain rfl : more = more' := by
          have htoken := Option.some.inj (hsign.front?.symm.trans hsign'.front?)
          rw [← htoken] at hsign'
          exact hsign.unique hsign'
        have hlast := ((hright.read right' last).mp hright').length_lt
        have hr := hmore.length_lt
        omega

end Continuation

/-! ## Predicates -/

/-- The six kinds of phrases for predicates. -/
inductive PredLevel where
  | predicate
  | implication
  | disjunction
  | conjunction
  | unary
  | atom

/-- `P ::= I | I ⇔ I`, `I ::= D | D ⇒ I`, `D ::= C | D ∨ C`, `C ::= U | C ∧ U`,
    `U ::= ¬ U | (∀|∃) decl (, decl)* · P | A` and
    `A ::= ⊤ | ⊥ | ( P ) | E rel E`.  A body that starts at `start` may leave
    `rest` if `admits start rest`. -/
inductive Derives (admits : List Lexeme → List Lexeme → Prop) :
    PredLevel → List Lexeme → Pred → List Lexeme → Prop
  | implication {ts rest : List Lexeme} {v : Pred} (h : Derives admits .implication ts v rest) :
      Derives admits .predicate ts v rest
  | iff {ts mid more rest : List Lexeme} {left right : Pred}
      (hleft : Derives admits .implication ts left mid) (hsign : Leads [.connective .iff] mid more)
      (hright : Derives admits .implication more right rest) :
      Derives admits .predicate ts (.binary .iff left right) rest
  | disjunction {ts rest : List Lexeme} {v : Pred} (h : Derives admits .disjunction ts v rest) :
      Derives admits .implication ts v rest
  | imp {ts mid more rest : List Lexeme} {left right : Pred}
      (hleft : Derives admits .disjunction ts left mid) (hsign : Leads [.connective .imp] mid more)
      (hright : Derives admits .implication more right rest) :
      Derives admits .implication ts (.binary .imp left right) rest
  | conjunction {ts rest : List Lexeme} {v : Pred} (h : Derives admits .conjunction ts v rest) :
      Derives admits .disjunction ts v rest
  | or {ts mid more rest : List Lexeme} {left right : Pred}
      (hleft : Derives admits .disjunction ts left mid) (hsign : Leads [.connective .or] mid more)
      (hright : Derives admits .conjunction more right rest) :
      Derives admits .disjunction ts (.binary .or left right) rest
  | unary {ts rest : List Lexeme} {v : Pred} (h : Derives admits .unary ts v rest) :
      Derives admits .conjunction ts v rest
  | and {ts mid more rest : List Lexeme} {left right : Pred}
      (hleft : Derives admits .conjunction ts left mid) (hsign : Leads [.connective .and] mid more)
      (hright : Derives admits .unary more right rest) :
      Derives admits .conjunction ts (.binary .and left right) rest
  | atom {ts rest : List Lexeme} {v : Pred} (h : Derives admits .atom ts v rest) :
      Derives admits .unary ts v rest
  | not {ts more rest : List Lexeme} {inner : Pred} (hsign : Leads [.not] ts more)
      (hinner : Derives admits .unary more inner rest) : Derives admits .unary ts (.not inner) rest
  | quantified {ts more mid start rest : List Lexeme} {q : Quantifier} {decls : List TypedName}
      {body : Pred} (hquantifier : Leads [.quantifier q] ts more)
      (hdecls : DerivesDecls more decls mid) (hdot : Leads [.dot] mid start)
      (hbody : Derives admits .predicate start body rest) (hadmits : admits start rest) :
      Derives admits .unary ts (.quantified q decls body) rest
  | top {ts rest : List Lexeme} (h : Leads [.top] ts rest) : Derives admits .atom ts .top rest
  | bottom {ts rest : List Lexeme} (h : Leads [.bottom] ts rest) :
      Derives admits .atom ts .bottom rest
  | parens {ts opened mid rest : List Lexeme} {v : Pred} (hopened : Leads [.opening] ts opened)
      (hinner : Derives admits .predicate opened v mid) (hclosed : Leads [.closing] mid rest) :
      Derives admits .atom ts v rest
  | relation {ts mid more rest : List Lexeme} {op : Relation} {left right : Expr}
      (hleft : DerivesExpr .sum ts left mid) (hsign : Leads [.relation op] mid more)
      (hright : DerivesExpr .sum more right rest) :
      Derives admits .atom ts (.relation op left right) rest

/-- Bodies may end anywhere. -/
def Anywhere : List Lexeme → List Lexeme → Prop := fun _ _ => True

/-- Bodies that are allowed more may end in more places. -/
theorem Derives.mono {admits admits' : List Lexeme → List Lexeme → Prop} {l : PredLevel}
    {ts rest : List Lexeme} {v : Pred}
    (hadmits : ∀ start rest, admits start rest → admits' start rest)
    (h : Derives admits l ts v rest) : Derives admits' l ts v rest := by
  induction h with
  | implication _ ih => exact .implication ih
  | iff _ hsign _ ihl ihr => exact .iff ihl hsign ihr
  | disjunction _ ih => exact .disjunction ih
  | imp _ hsign _ ihl ihr => exact .imp ihl hsign ihr
  | conjunction _ ih => exact .conjunction ih
  | or _ hsign _ ihl ihr => exact .or ihl hsign ihr
  | unary _ ih => exact .unary ih
  | and _ hsign _ ihl ihr => exact .and ihl hsign ihr
  | atom _ ih => exact .atom ih
  | not hsign _ ih => exact .not hsign ih
  | quantified hquantifier hdecls hdot _ hbody ih =>
      exact .quantified hquantifier hdecls hdot ih (hadmits _ _ hbody)
  | top h => exact .top h
  | bottom h => exact .bottom h
  | parens hopened _ hclosed ih => exact .parens hopened ih hclosed
  | relation hleft hsign hright => exact .relation hleft hsign hright

section Sound

variable {admits : List Lexeme → List Lexeme → Prop}

/-- What is read as a relation is a phrase for it. -/
theorem derives_of_relation {ts rest : List Lexeme} {v : Pred} (h : Reads (relation ts) v rest) :
    Derives admits .atom ts v rest := by
  obtain ⟨left, mid, hleft, op, more, right, hsign, hright, rfl⟩ := reads_relation.mp h
  exact .relation (derives_of_expression hleft) hsign (derives_of_expression hright)

/-- Bodies may end where the reader of predicates ends. -/
def AsRead (admits : List Lexeme → List Lexeme → Prop) : Prop :=
  ∀ {start rest : List Lexeme} {body : Pred}, Reads (predicate start) body rest → admits start rest

mutual

/-- What is read as a predicate is a phrase for it. -/
theorem derives_of_predicate {ts rest : List Lexeme} {v : Pred} (hadmits : AsRead admits)
    (h : Reads (predicate ts) v rest) : Derives admits .predicate ts v rest := by
  obtain ⟨left, mid, hleft, hrest⟩ := reads_predicate.mp h
  have hlt := hleft.length_lt
  have hderives := derives_of_implication hadmits hleft
  rcases hrest with ⟨-, rfl, rfl⟩ | ⟨more, right, hsign, hright, rfl⟩
  · exact .implication hderives
  · have hlt' := hsign.length_lt
    exact .iff hderives hsign (derives_of_implication hadmits hright)
termination_by ts.length * 8 + 7

theorem derives_of_implication {ts rest : List Lexeme} {v : Pred} (hadmits : AsRead admits)
    (h : Reads (implication ts) v rest) : Derives admits .implication ts v rest := by
  obtain ⟨left, mid, hleft, hrest⟩ := reads_implication.mp h
  have hlt := hleft.length_lt
  have hderives := derives_of_disjunction hadmits hleft
  rcases hrest with ⟨-, rfl, rfl⟩ | ⟨more, right, hsign, hright, rfl⟩
  · exact .disjunction hderives
  · have hlt' := hsign.length_lt
    exact .imp hderives hsign (derives_of_implication hadmits hright)
termination_by ts.length * 8 + 6

theorem derives_of_disjunction {ts rest : List Lexeme} {v : Pred} (hadmits : AsRead admits)
    (h : Reads (disjunction ts) v rest) : Derives admits .disjunction ts v rest := by
  obtain ⟨first, mid, hfirst, hmore⟩ := reads_disjunction.mp h
  have hlt := hfirst.length_lt
  exact derives_of_moreDisjuncts hadmits (.conjunction (derives_of_conjunction hadmits hfirst))
    hmore
termination_by ts.length * 8 + 5

/-- A loop over disjuncts extends a phrase on its left. -/
theorem derives_of_moreDisjuncts {start ts rest : List Lexeme} {left v : Pred}
    (hadmits : AsRead admits) (hleft : Derives admits .disjunction start left ts)
    (h : Reads (moreDisjuncts left ts) v rest) : Derives admits .disjunction start v rest := by
  rcases reads_moreDisjuncts.mp h with ⟨-, rfl, rfl⟩ | ⟨more, right, mid, hsign, hright, hmore⟩
  · exact hleft
  · have hlt := hsign.length_lt
    have hlt' := hright.length_lt
    exact derives_of_moreDisjuncts hadmits
      (.or hleft hsign (derives_of_conjunction hadmits hright)) hmore
termination_by ts.length * 8 + 4

theorem derives_of_conjunction {ts rest : List Lexeme} {v : Pred} (hadmits : AsRead admits)
    (h : Reads (conjunction ts) v rest) : Derives admits .conjunction ts v rest := by
  obtain ⟨first, mid, hfirst, hmore⟩ := reads_conjunction.mp h
  have hlt := hfirst.length_lt
  exact derives_of_moreConjuncts hadmits (.unary (derives_of_unary hadmits hfirst)) hmore
termination_by ts.length * 8 + 3

/-- A loop over conjuncts extends a phrase on its left. -/
theorem derives_of_moreConjuncts {start ts rest : List Lexeme} {left v : Pred}
    (hadmits : AsRead admits) (hleft : Derives admits .conjunction start left ts)
    (h : Reads (moreConjuncts left ts) v rest) : Derives admits .conjunction start v rest := by
  rcases reads_moreConjuncts.mp h with ⟨-, rfl, rfl⟩ | ⟨more, right, mid, hsign, hright, hmore⟩
  · exact hleft
  · have hlt := hsign.length_lt
    have hlt' := hright.length_lt
    exact derives_of_moreConjuncts hadmits
      (.and hleft hsign (derives_of_unary hadmits hright)) hmore
termination_by ts.length * 8 + 2

theorem derives_of_unary {ts rest : List Lexeme} {v : Pred} (hadmits : AsRead admits)
    (h : Reads (unary ts) v rest) : Derives admits .unary ts v rest := by
  rcases reads_unary.mp h with ⟨more, inner, hsign, hinner, rfl⟩ |
    ⟨q, more, decls, mid, hquantifier, hdecls, start, body, hdot, hbody, rfl⟩ | ⟨-, -, hatom⟩
  · have hlt := hsign.length_lt
    exact .not hsign (derives_of_unary hadmits hinner)
  · have hlt := hquantifier.length_lt
    have hlt' := hdecls.length_lt
    have hlt'' := hdot.length_lt
    exact .quantified hquantifier (derives_of_declarations hdecls) hdot
      (derives_of_predicate hadmits hbody) (hadmits hbody)
  · exact .atom (derives_of_atom hadmits hatom)
termination_by ts.length * 8 + 1

/-- The same for atoms, where a parenthesis may open a predicate or an
    expression. -/
theorem derives_of_atom {ts rest : List Lexeme} {v : Pred} (hadmits : AsRead admits)
    (h : Reads (atom ts) v rest) : Derives admits .atom ts v rest := by
  rcases reads_atom.mp h with ⟨hleads, rfl⟩ | ⟨hleads, rfl⟩ | ⟨-, -, hrelation⟩ |
    ⟨-, opened, mid, hopened, hinner, hclosed⟩
  · exact .top hleads
  · exact .bottom hleads
  · exact derives_of_relation hrelation
  · have hlt := hopened.length_lt
    exact .parens hopened (derives_of_predicate hadmits hinner) hclosed
termination_by ts.length * 8

end

end Sound

/-! ## Parentheses -/

/-- An expression read from the front of a predicate stops at a relation
    symbol. -/
theorem Derives.front?_of_expression {admits : List Lexeme → List Lexeme → Prop} {l : PredLevel}
    {ts rest r : List Lexeme} {v : Pred} {e : Expr} (h : Derives admits l ts v rest)
    (hread : Reads (expression ts) e r) : ∃ op, front? r = some (.relation op) := by
  obtain ⟨t, hfront, ht⟩ := startsExpr_of_expression hread
  induction h generalizing e r t with
  | implication _ ih => exact ih hread t hfront ht
  | iff _ _ _ ihl _ => exact ihl hread t hfront ht
  | disjunction _ ih => exact ih hread t hfront ht
  | imp _ _ _ ihl _ => exact ihl hread t hfront ht
  | conjunction _ ih => exact ih hread t hfront ht
  | or _ _ _ ihl _ => exact ihl hread t hfront ht
  | unary _ ih => exact ih hread t hfront ht
  | and _ _ _ ihl _ => exact ihl hread t hfront ht
  | atom _ ih => exact ih hread t hfront ht
  | not hsign _ _ =>
      cases hfront.symm.trans hsign.front?
      cases ht
  | quantified hquantifier _ _ _ _ _ =>
      cases hfront.symm.trans hquantifier.front?
      cases ht
  | top h =>
      cases hfront.symm.trans h.front?
      cases ht
  | bottom h =>
      cases hfront.symm.trans h.front?
      cases ht
  | parens hopened _ _ ih =>
      -- the expression would end at the parenthesis that closes the predicate
      obtain ⟨inner, mid, hinner, hclosing⟩ := exists_closing_of_expression hread hopened
      obtain ⟨t', hfront', ht'⟩ := startsExpr_of_expression hinner
      obtain ⟨op, hrelation⟩ := ih hinner t' hfront' ht'
      cases hclosing.symm.trans hrelation
  | @relation ts mid more rest op left right hleft hsign _ =>
      have hstop : frontStrength mid < 5 := by
        rw [hsign.frontStrength]
        exact Nat.zero_lt_succ 4
      obtain ⟨-, rfl⟩ := (hleft.reads hstop).unique hread
      exact ⟨op, hsign.front?⟩

/-- No expression starts at the parenthesis around a predicate. -/
theorem not_reads_expression {admits : List Lexeme → List Lexeme → Prop}
    {ts opened mid r : List Lexeme} {v : Pred} {e : Expr} (hopened : Leads [.opening] ts opened)
    (h : Derives admits .predicate opened v mid) : ¬ Reads (expression ts) e r := by
  intro hread
  obtain ⟨inner, last, hinner, hclosing⟩ := exists_closing_of_expression hread hopened
  obtain ⟨op, hrelation⟩ := h.front?_of_expression hinner
  cases hclosing.symm.trans hrelation

end Grammar

end SequentProver
