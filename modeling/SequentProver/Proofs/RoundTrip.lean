import SequentProver.Proofs.WrittenForm

/-! # Reading back what was written

    The tokens of a written formula are read as the formula.  The argument
    goes by precedence: `ReadsAt k` says how the tokens of an operand that
    binds at least as tightly as level `k` are read by the reader of that
    level, and a reader of a tighter level serves every looser one.  The
    readers of left-grouping operators go on with what follows their first
    operand, so at those levels the statement is about that continuation.

    The choice at an opening parenthesis is right because an expression
    read from the front of a written predicate always stops at a relation
    symbol, and so never at the closing parenthesis. -/

namespace SequentProver

namespace Parser

open Token (wrapped)

/-- Tokens in parentheses in front, one part after the other. -/
theorem leads_wrapped {ts : List Token} {input rest : List Lexeme} :
    Leads (wrapped true ts) input rest ↔ ∃ opened mid, Leads [.opening] input opened ∧
      Leads ts opened mid ∧ Leads [.closing] mid rest := by
  show Leads (.opening :: (ts ++ [.closing])) input rest ↔ _
  simp only [@leads_cons .opening (ts ++ [.closing]), leads_append, exists_and_left]

/-! ## Types -/

/-- What is read as an atom is read as a type, too. -/
theorem reads_ty_of_typeAtom {t : Ty} {ts : List Token}
    (h : ∀ input rest, Leads ts input rest → Reads (typeAtom input) t rest) :
    (t.isProduct = false → ∀ input rest, Leads ts input rest → Reads (typeAtom input) t rest) ∧
      ∀ input rest, Leads ts input rest → front? rest ≠ some .cross → Reads (ty input) t rest :=
  ⟨fun _ => h, fun input rest hleads hrest =>
    reads_ty.mpr ⟨t, rest, h input rest hleads, .inl ⟨hrest, rfl, rfl⟩⟩⟩

/-- A written type is read back where no product sign follows, and as an
    atom unless it is a product. -/
theorem reads_ty_tokens (t : Ty) :
    (t.isProduct = false → ∀ input rest, Leads t.tokens input rest →
      Reads (typeAtom input) t rest) ∧
    ∀ input rest, Leads t.tokens input rest → front? rest ≠ some .cross →
      Reads (ty input) t rest := by
  -- a product is wrapped on the left only, and stops in front of a further cross
  induction t with
  | integer =>
      exact reads_ty_of_typeAtom fun input rest h => reads_typeAtom.mpr (.inl ⟨h, rfl⟩)
  | boolean =>
      exact reads_ty_of_typeAtom fun input rest h => reads_typeAtom.mpr (.inr (.inl ⟨h, rfl⟩))
  | given name =>
      exact reads_ty_of_typeAtom fun input rest h =>
        reads_typeAtom.mpr (.inr (.inr (.inl ⟨name, h, rfl⟩)))
  | powerSet elem ih =>
      refine reads_ty_of_typeAtom fun input rest h => ?_
      obtain ⟨mid, hpower, hwrapped⟩ := leads_cons.mp h
      obtain ⟨opened, inner, hopened, helem, hclosed⟩ := leads_wrapped.mp hwrapped
      have hread := ih.2 opened inner helem (by rw [hclosed.front?]; decide)
      have hfront : Leads [.powerSet, .opening] input opened :=
        leads_cons.mpr ⟨mid, hpower, hopened⟩
      exact reads_typeAtom.mpr (.inr (.inr (.inr (.inl
        ⟨opened, elem, inner, hfront, hread, hclosed, rfl⟩))))
  | product left right ihl ihr =>
      refine ⟨nofun, fun input rest h hrest => ?_⟩
      obtain ⟨mid, hleft, hmid⟩ := leads_append.mp h
      obtain ⟨more, hcross, hright⟩ := leads_cons.mp hmid
      have hreadl : Reads (typeAtom input) left mid := by
        -- a product on the left is written in parentheses, and read as an atom
        cases hproduct : left.isProduct with
        | false =>
            rw [hproduct] at hleft
            exact ihl.1 hproduct input mid hleft
        | true =>
            rw [hproduct] at hleft
            obtain ⟨opened, inner, hopened, hinner, hclosed⟩ := leads_wrapped.mp hleft
            have hread := ihl.2 opened inner hinner (by rw [hclosed.front?]; decide)
            exact reads_typeAtom.mpr (.inr (.inr (.inr (.inr
              ⟨opened, inner, hopened, hread, hclosed⟩))))
      exact reads_ty.mpr ⟨left, mid, hreadl, .inr
        ⟨more, right, hcross, ihr.2 more rest hright hrest, rfl⟩⟩

/-- The tokens of a binder in front: a name, a colon and a type. -/
theorem leads_typedName {n : TypedName} {input rest : List Lexeme}
    (h : Leads n.tokens input rest) :
    ∃ more, Leads [.ident n.name, .colon] input more ∧ Leads n.ty.tokens more rest :=
  (@leads_append [.ident n.name, .colon] n.ty.tokens input rest).mp h

/-- Written declarations are read back where neither a comma nor a product
    sign follows. -/
theorem reads_declarations_tokens {ns : List TypedName} (hne : ns ≠ []) {input rest : List Lexeme}
    (h : Leads (TypedName.tokensAmong ns) input rest) (hcross : front? rest ≠ some .cross)
    (hcomma : front? rest ≠ some .comma) : Reads (declarations input) ns rest := by
  induction ns generalizing input with
  | nil => exact absurd rfl hne
  | cons n ns ih =>
      cases ns with
      | nil =>
          obtain ⟨more, hname, hty⟩ := leads_typedName h
          exact reads_declarations.mpr ⟨n.name, more, n.ty, rest, hname,
            (reads_ty_tokens n.ty).2 more rest hty hcross, .inl ⟨hcomma, rfl, rfl⟩⟩
      | cons m ns =>
          obtain ⟨mid, hn, hmid⟩ := leads_append.mp h
          obtain ⟨more, hname, hty⟩ := leads_typedName hn
          obtain ⟨next, hnext, hothers⟩ := leads_cons.mp hmid
          have hfront := hnext.front?
          exact reads_declarations.mpr ⟨n.name, more, n.ty, mid, hname,
            (reads_ty_tokens n.ty).2 more mid hty (by rw [hfront]; decide),
            .inr ⟨next, m :: ns, hnext, ih (by simp) hothers, rfl⟩⟩

/-! ## Expressions -/

/-- Where the tokens `ts` stand, the reader of level `k` takes them for
    `e`; the readers of terms and sums then go on with what follows. -/
def ReadsExprAt : Nat → List Token → Expr → Prop
  | 0, ts, e | 1, ts, e => ∀ input mid v rest, Leads ts input mid → frontStrength mid ≠ 6 →
      Reads (moreTerms e mid) v rest → Reads (expression input) v rest
  | 2, ts, e => ∀ input mid v rest, Leads ts input mid →
      Reads (moreFactors e mid) v rest → Reads (term input) v rest
  | _, ts, e => ∀ input rest, Leads ts input rest → Reads (factor input) e rest

section Expressions

variable {ts : List Token} {e : Expr}

/-- What a tighter reader takes, the next looser one takes. -/
theorem ReadsExprAt.looser {k : Nat} (h : ReadsExprAt (k + 1) ts e) : ReadsExprAt k ts e := by
  match k with
  | 0 => exact h
  | 1 =>
    intro input mid v rest hleads hmid hmore
    have hterm := h input mid e mid hleads (reads_moreFactors.mpr (.inl ⟨hmid, rfl, rfl⟩))
    exact reads_expression.mpr ⟨e, mid, hterm, hmore⟩
  | 2 =>
    intro input mid v rest hleads hmore
    exact reads_term.mpr ⟨e, mid, h input mid hleads, hmore⟩
  | k + 3 => exact h

theorem ReadsExprAt.of_le {j k : Nat} (h : ReadsExprAt k ts e) (hle : j ≤ k) :
    ReadsExprAt j ts e := by
  induction hle with
  | refl => exact h
  | step _ ih => exact ih h.looser

/-- Before a token that joins no summands, the whole expression is read. -/
theorem ReadsExprAt.expression (h : ReadsExprAt 0 ts e) {input rest : List Lexeme}
    (hleads : Leads ts input rest) (hrest : frontStrength rest < 5) :
    Reads (expression input) e rest :=
  h input rest e rest hleads (by omega) (reads_moreTerms.mpr (.inl ⟨by omega, rfl, rfl⟩))

/-- A parenthesized expression is a factor. -/
theorem ReadsExprAt.wrapped (h : ReadsExprAt 0 ts e) (k : Nat) :
    ReadsExprAt k (wrapped true ts) e := by
  have hfactor : ReadsExprAt (k + 3) (Token.wrapped true ts) e := by
    intro input rest hleads
    obtain ⟨opened, mid, hopened, hinner, hclosed⟩ := leads_wrapped.mp hleads
    have hread := h.expression hinner (by rw [hclosed.frontStrength]; decide)
    exact reads_factor.mpr (.inr (.inr (.inr (.inr (.inr ⟨opened, mid, hopened, hread, hclosed⟩)))))
  exact hfactor.of_le (by omega)

/-- An operand is read at the level its place asks for when it binds that
    tightly or is parenthesized. -/
theorem readsExprAt_operand {k : Nat} {needed : Bool}
    (h : ∀ j ≤ e.precedence, ReadsExprAt j e.tokens e)
    (hloose : e.precedence < k → needed = true) :
    ReadsExprAt k (Token.wrapped needed e.tokens) e := by
  cases needed with
  | false => exact h k (Nat.le_of_not_lt fun hlt => Bool.noConfusion (hloose hlt))
  | true => exact (h 0 (Nat.zero_le _)).wrapped k

end Expressions

/-- The digits of a number stand for it. -/
theorem digitsValue_repr (n : Nat) : Text.digitsValue (Nat.repr n).toList = n := by
  rw [Nat.repr_eq_ofList_toDigits, String.toList_ofList]
  have hvalue := @Nat.ofDigitChars_ten_toDigits n
  rw [Nat.ofDigitChars_eq_foldl] at hvalue
  simpa only [Text.digitsValue, Nat.mul_comm] using hvalue

/-- The digits of a 64-bit integer, with its sign, are a literal. -/
theorem isLiteral_repr (value : Int64) :
    IsLiteral (value.toInt < 0) (Nat.repr value.toInt.natAbs) (.integer value) := by
  refine ⟨value.toInt, ?_, ?_, ?_, ?_⟩
  · rw [digitsValue_repr]
    simp only [decide_eq_true_eq]
    omega
  · exact value.minValue_le_toInt
  · exact value.toInt_le
  · rw [Int64.ofInt_toInt]

/-- The operand of a minus sign does not start with digits. -/
theorem front?_negated {inner : Expr} {input rest : List Lexeme}
    (h : Leads (wrapped (inner.precedence < 3 || inner.isInteger) inner.tokens) input rest)
    (digits : String) : front? input ≠ some (.int digits) := by
  cases inner with
  | ident name => simp [Leads.front? h]
  | integer value => simp [Leads.front? h]
  | bool value => simp [Leads.front? h]
  | neg inner => simp [Leads.front? h]
  | arith op left right =>
      cases op with
      | add => simp [Leads.front? h]
      | sub => simp [Leads.front? h]
      | mul => simp [Leads.front? h]

/-- A written product is read back as a term. -/
theorem readsExprAt_mul {left right : Expr}
    (hleft : ∀ k ≤ left.precedence, ReadsExprAt k left.tokens left)
    (hright : ∀ k ≤ right.precedence, ReadsExprAt k right.tokens right) :
    ReadsExprAt 2 (Expr.arith .mul left right).tokens (.arith .mul left right) := by
  intro input last v rest hleads hmore
  obtain ⟨mid, hl, hmid⟩ := leads_append.mp hleads
  obtain ⟨more, htimes, hr⟩ := leads_cons.mp hmid
  -- the left operand is taken first and the reader goes on with the sign
  have hfactor : Reads (factor more) right last :=
    readsExprAt_operand (k := 3) hright (fun h => decide_eq_true (Nat.le_of_lt_succ h)) more last hr
  refine readsExprAt_operand (k := 2) hleft (fun h => decide_eq_true h) input mid v rest hl ?_
  exact reads_moreFactors.mpr (.inr ⟨more, right, last, htimes, hfactor, hmore⟩)

/-- A written sum or difference is read back as an expression. -/
theorem readsExprAt_sum {op : ArithOp} {left right : Expr} (hop : op.precedence = 1)
    (hleft : ∀ k ≤ left.precedence, ReadsExprAt k left.tokens left)
    (hright : ∀ k ≤ right.precedence, ReadsExprAt k right.tokens right) :
    ReadsExprAt 1 (Expr.arith op left right).tokens (.arith op left right) := by
  intro input last v rest hleads hlast hmore
  obtain ⟨mid, hl, hmid⟩ := leads_append.mp hleads
  obtain ⟨more, hsign, hr⟩ := leads_cons.mp hmid
  have hterm : Reads (term more) right last :=
    readsExprAt_operand (k := 2) hright (fun h => by simp [hop]; omega) more last right last hr
      (reads_moreFactors.mpr (.inl ⟨hlast, rfl, rfl⟩))
  have hfront : frontStrength mid ≠ 6 := by
    rw [hsign.frontStrength]
    cases op <;> simp_all [ArithOp.token, Token.strength, ArithOp.precedence]
  refine readsExprAt_operand (k := 1) hleft (fun h => by simpa [hop] using h) input mid v rest
    hl hfront ?_
  exact reads_moreTerms.mpr (.inr ⟨op, more, right, last, hop, hsign, hterm, hmore⟩)

/-- A written expression is read back at every level up to its own. -/
theorem readsExprAt_tokens (e : Expr) : ∀ k ≤ e.precedence, ReadsExprAt k e.tokens e := by
  induction e with
  | ident name =>
      have h : ReadsExprAt 4 [.ident name] (.ident name) := fun input rest hleads =>
        reads_factor.mpr (.inr (.inr (.inr (.inl ⟨name, hleads, rfl⟩))))
      exact fun k hk => h.of_le hk
  | integer value =>
      have h : ReadsExprAt 4 (Expr.integer value).tokens (.integer value) := by
        intro input rest hleads
        have hliteral := isLiteral_repr value
        -- the sign is written as a token of its own and read back into the literal
        by_cases hneg : value.toInt < 0
        · simp only [Expr.tokens, hneg, if_true, decide_true] at hleads hliteral
          exact reads_factor.mpr (.inr (.inl ⟨_, hleads, hliteral⟩))
        · simp only [Expr.tokens, hneg, if_false, decide_false] at hleads hliteral
          exact reads_factor.mpr (.inl ⟨_, hleads, hliteral⟩)
      exact fun k hk => h.of_le hk
  | bool value =>
      have h : ReadsExprAt 4 [.bool value] (.bool value) := fun input rest hleads =>
        reads_factor.mpr (.inr (.inr (.inr (.inr (.inl ⟨value, hleads, rfl⟩)))))
      exact fun k hk => h.of_le hk
  | neg inner ih =>
      have h : ReadsExprAt 3 (Expr.neg inner).tokens (.neg inner) := by
        intro input rest hleads
        obtain ⟨more, hminus, hinner⟩ := leads_cons.mp hleads
        have hread : Reads (factor more) inner rest :=
          readsExprAt_operand (k := 3) ih (fun h => by simp [h]) more rest hinner
        exact reads_factor.mpr (.inr (.inr (.inl
          ⟨more, inner, hminus, front?_negated hinner, hread, rfl⟩)))
      exact fun k hk => h.of_le hk
  | arith op left right ihl ihr =>
      cases op with
      | add => exact fun k hk => (readsExprAt_sum rfl ihl ihr).of_le hk
      | sub => exact fun k hk => (readsExprAt_sum rfl ihl ihr).of_le hk
      | mul => exact fun k hk => (readsExprAt_mul ihl ihr).of_le hk

/-- A written expression is read back before a token that joins no
    summands. -/
theorem reads_expression_tokens {e : Expr} {input rest : List Lexeme}
    (h : Leads e.tokens input rest) (hrest : frontStrength rest < 5) :
    Reads (expression input) e rest :=
  (readsExprAt_tokens e 0 (Nat.zero_le _)).expression h hrest

/-! ## Parentheses around a predicate -/

/-- An expression read from the front of a written predicate stops at a
    relation symbol. -/
theorem front?_of_expression {p : Pred} {v : Expr} {input mid rest : List Lexeme}
    (hp : Leads p.tokens input rest) (h : Reads (expression input) v mid) :
    ∃ op, front? mid = some (.relation op) := by
  obtain ⟨t, hfront, ht⟩ := startsExpr_of_expression h
  induction p generalizing input v mid rest t with
  | top =>
      cases hfront.symm.trans hp.front?
      cases ht
  | bottom =>
      cases hfront.symm.trans hp.front?
      cases ht
  | not inner ih =>
      cases hfront.symm.trans hp.front?
      cases ht
  | binary op left right ihl ihr =>
      obtain ⟨middle, hleft, -⟩ := leads_append.mp hp
      cases hguard : op.guardsLeft left.precedence with
      | false =>
          rw [hguard] at hleft
          exact ihl hleft h t hfront ht
      | true =>
          -- the expression would end at the parenthesis around the left operand
          rw [hguard] at hleft
          obtain ⟨opened, last, hopened, hinner, -⟩ := leads_wrapped.mp hleft
          obtain ⟨inner, stop, hread, hclosing⟩ := exists_closing_of_expression h hopened
          obtain ⟨t', hfront', ht'⟩ := startsExpr_of_expression hread
          obtain ⟨op', hrelation⟩ := ihl hinner hread t' hfront' ht'
          cases hclosing.symm.trans hrelation
  | relation op left right =>
      obtain ⟨middle, hleft, hmiddle⟩ := leads_append.mp hp
      have hread := reads_expression_tokens hleft (by simp [hmiddle.frontStrength, Token.strength])
      obtain ⟨-, rfl⟩ := h.unique hread
      exact ⟨op, hmiddle.front?⟩
  | quantified q decls body ih =>
      cases hfront.symm.trans hp.front?
      cases ht

/-- No relation starts at the parenthesis around a predicate. -/
theorem not_reads_relation {p v : Pred} {input mid rest : List Lexeme}
    (hp : Leads (wrapped true p.tokens) input mid) : ¬ Reads (relation input) v rest := by
  intro h
  obtain ⟨opened, last, hopened, hinner, -⟩ := leads_wrapped.mp hp
  obtain ⟨left, stop, hleft, -⟩ := reads_relation.mp h
  obtain ⟨inner, stop', hread, hclosing⟩ := exists_closing_of_expression hleft hopened
  obtain ⟨op, hrelation⟩ := front?_of_expression hinner hread
  cases hclosing.symm.trans hrelation

/-! ## Predicates -/

/-- Where the tokens `ts` stand, the reader of level `k` takes them for
    `p`; the readers of conjunctions and disjunctions then go on with what
    follows. -/
def ReadsPredAt : Nat → List Token → Pred → Prop
  | 0, ts, p | 1, ts, p => ∀ input rest, Leads ts input rest → frontStrength rest < 1 →
      Reads (predicate input) p rest
  | 2, ts, p => ∀ input rest, Leads ts input rest → frontStrength rest < 2 →
      Reads (implication input) p rest
  | 3, ts, p => ∀ input mid v rest, Leads ts input mid → frontStrength mid < 4 →
      Reads (moreDisjuncts p mid) v rest → Reads (disjunction input) v rest
  | 4, ts, p => ∀ input mid v rest, Leads ts input mid → frontStrength mid < 5 →
      Reads (moreConjuncts p mid) v rest → Reads (conjunction input) v rest
  | _, ts, p => ∀ input rest, Leads ts input rest → frontStrength rest < 5 →
      Reads (unary input) p rest

section Predicates

variable {ts : List Token} {p : Pred}

/-- What a tighter reader takes, the next looser one takes. -/
theorem ReadsPredAt.looser {k : Nat} (h : ReadsPredAt (k + 1) ts p) : ReadsPredAt k ts p := by
  -- one case for each level of the grammar, since each is read by a function of its own
  match k with
  | 0 => exact h
  | 1 =>
    intro input rest hleads hrest
    have himplication := h input rest hleads (by omega)
    exact reads_predicate.mpr ⟨p, rest, himplication, .inl ⟨by omega, rfl, rfl⟩⟩
  | 2 =>
    intro input rest hleads hrest
    have hdisjunction := h input rest p rest hleads (by omega)
      (reads_moreDisjuncts.mpr (.inl ⟨by omega, rfl, rfl⟩))
    exact reads_implication.mpr ⟨p, rest, hdisjunction, .inl ⟨by omega, rfl, rfl⟩⟩
  | 3 =>
    intro input mid v rest hleads hmid hmore
    have hconjunction := h input mid p mid hleads (by omega)
      (reads_moreConjuncts.mpr (.inl ⟨by omega, rfl, rfl⟩))
    exact reads_disjunction.mpr ⟨p, mid, hconjunction, hmore⟩
  | 4 =>
    intro input mid v rest hleads hmid hmore
    exact reads_conjunction.mpr ⟨p, mid, h input mid hleads hmid, hmore⟩
  | k + 5 => exact h

theorem ReadsPredAt.of_le {j k : Nat} (h : ReadsPredAt k ts p) (hle : j ≤ k) :
    ReadsPredAt j ts p := by
  induction hle with
  | refl => exact h
  | step _ ih => exact ih h.looser

/-- A parenthesized predicate is an atom. -/
theorem ReadsPredAt.wrapped (h : ReadsPredAt 0 p.tokens p) (k : Nat) :
    ReadsPredAt k (wrapped true p.tokens) p := by
  have hunary : ReadsPredAt (k + 5) (Token.wrapped true p.tokens) p := by
    intro input rest hleads hrest
    obtain ⟨opened, mid, hopened, hinner, hclosed⟩ := leads_wrapped.mp hleads
    have hread := h opened mid hinner (by rw [hclosed.frontStrength]; decide)
    have hatom : Reads (atom input) p rest := reads_atom.mpr (.inr (.inr (.inr
      ⟨fun v r => not_reads_relation hleads, opened, mid, hopened, hread, hclosed⟩)))
    have hfront := hopened.front?
    exact reads_unary.mpr (.inr (.inr ⟨by simp [hfront], by simp [hfront], hatom⟩))
  exact hunary.of_le (by omega)

/-- An operand is read at the level its place asks for when it binds that
    tightly or is parenthesized. -/
theorem readsPredAt_operand {k : Nat} {needed : Bool}
    (h : ∀ j ≤ p.precedence, ReadsPredAt j p.tokens p)
    (hloose : p.precedence < k → needed = true) :
    ReadsPredAt k (Token.wrapped needed p.tokens) p := by
  cases needed with
  | false => exact h k (Nat.le_of_not_lt fun hlt => Bool.noConfusion (hloose hlt))
  | true => exact (h 0 (Nat.zero_le _)).wrapped k

/-- A predicate that a reader of the tightest level takes whole is read by
    the loosest one, too. -/
theorem reads_predicate_of_unary {input rest : List Lexeme} (h : Reads (unary input) p rest)
    (hrest : frontStrength rest < 1) : Reads (predicate input) p rest := by
  have hconjunction : Reads (conjunction input) p rest :=
    reads_conjunction.mpr ⟨p, rest, h, reads_moreConjuncts.mpr (.inl ⟨by omega, rfl, rfl⟩)⟩
  have hdisjunction : Reads (disjunction input) p rest :=
    reads_disjunction.mpr
      ⟨p, rest, hconjunction, reads_moreDisjuncts.mpr (.inl ⟨by omega, rfl, rfl⟩)⟩
  have himplication : Reads (implication input) p rest :=
    reads_implication.mpr ⟨p, rest, hdisjunction, .inl ⟨by omega, rfl, rfl⟩⟩
  exact reads_predicate.mpr ⟨p, rest, himplication, .inl ⟨by omega, rfl, rfl⟩⟩

end Predicates

section Binary

variable {left right : Pred}

/-- The reader of conjunctions takes a written conjunction. -/
theorem readsPredAt_and (hleft : ∀ k ≤ left.precedence, ReadsPredAt k left.tokens left)
    (hright : ∀ k ≤ right.precedence, ReadsPredAt k right.tokens right) :
    ReadsPredAt 4 (Pred.binary .and left right).tokens (.binary .and left right) := by
  intro input last v rest hleads hlast hmore
  obtain ⟨mid, hl, hmid⟩ := leads_append.mp hleads
  obtain ⟨more, hand, hr⟩ := leads_cons.mp hmid
  have hunary : Reads (unary more) right last :=
    readsPredAt_operand (k := 5) hright (fun h => decide_eq_true (Nat.le_of_lt_succ h)) more last
      hr hlast
  refine readsPredAt_operand (k := 4) hleft (fun h => decide_eq_true h) input mid v rest hl
    (by rw [hand.frontStrength]; decide) ?_
  exact reads_moreConjuncts.mpr (.inr ⟨more, right, last, hand, hunary, hmore⟩)

/-- The reader of disjunctions takes a written disjunction. -/
theorem readsPredAt_or (hleft : ∀ k ≤ left.precedence, ReadsPredAt k left.tokens left)
    (hright : ∀ k ≤ right.precedence, ReadsPredAt k right.tokens right) :
    ReadsPredAt 3 (Pred.binary .or left right).tokens (.binary .or left right) := by
  intro input last v rest hleads hlast hmore
  obtain ⟨mid, hl, hmid⟩ := leads_append.mp hleads
  obtain ⟨more, hor, hr⟩ := leads_cons.mp hmid
  have hconjunction : Reads (conjunction more) right last :=
    readsPredAt_operand (k := 4) hright (fun h => decide_eq_true (Nat.le_of_lt_succ h)) more last
      right last hr (by omega) (reads_moreConjuncts.mpr (.inl ⟨by omega, rfl, rfl⟩))
  refine readsPredAt_operand (k := 3) hleft (fun h => decide_eq_true h) input mid v rest hl
    (by rw [hor.frontStrength]; decide) ?_
  exact reads_moreDisjuncts.mpr (.inr ⟨more, right, last, hor, hconjunction, hmore⟩)

/-- The reader of implications takes a written implication. -/
theorem readsPredAt_imp (hleft : ∀ k ≤ left.precedence, ReadsPredAt k left.tokens left)
    (hright : ∀ k ≤ right.precedence, ReadsPredAt k right.tokens right) :
    ReadsPredAt 2 (Pred.binary .imp left right).tokens (.binary .imp left right) := by
  intro input rest hleads hrest
  obtain ⟨mid, hl, hmid⟩ := leads_append.mp hleads
  obtain ⟨more, himp, hr⟩ := leads_cons.mp hmid
  have hstrength := himp.frontStrength
  have hdisjunction : Reads (disjunction input) left mid :=
    readsPredAt_operand (k := 3) hleft (fun h => decide_eq_true (Nat.le_of_lt_succ h)) input mid
      left mid hl (by rw [hstrength]; decide)
      (reads_moreDisjuncts.mpr (.inl ⟨by rw [hstrength]; decide, rfl, rfl⟩))
  have himplication : Reads (implication more) right rest :=
    readsPredAt_operand (k := 2) hright (fun h => decide_eq_true h) more rest hr hrest
  exact reads_implication.mpr ⟨left, mid, hdisjunction, .inr
    ⟨more, right, himp, himplication, rfl⟩⟩

/-- The reader of predicates takes a written equivalence. -/
theorem readsPredAt_iff (hleft : ∀ k ≤ left.precedence, ReadsPredAt k left.tokens left)
    (hright : ∀ k ≤ right.precedence, ReadsPredAt k right.tokens right) :
    ReadsPredAt 1 (Pred.binary .iff left right).tokens (.binary .iff left right) := by
  intro input rest hleads hrest
  obtain ⟨mid, hl, hmid⟩ := leads_append.mp hleads
  obtain ⟨more, hiff, hr⟩ := leads_cons.mp hmid
  have himplication : Reads (implication input) left mid :=
    readsPredAt_operand (k := 2) hleft (fun h => decide_eq_true (Nat.le_of_lt_succ h)) input mid
      hl (by rw [hiff.frontStrength]; decide)
  have himplication' : Reads (implication more) right rest :=
    readsPredAt_operand (k := 2) hright (fun h => decide_eq_true (Nat.le_of_lt_succ h)) more rest
      hr (by omega)
  exact reads_predicate.mpr ⟨left, mid, himplication, .inr
    ⟨more, right, hiff, himplication', rfl⟩⟩

end Binary

/-- A written predicate is read back at every level up to its own. -/
theorem readsPredAt_tokens {p : Pred} (hp : p.wellNamed = true) :
    ∀ k ≤ p.precedence, ReadsPredAt k p.tokens p := by
  induction p with
  | top =>
      have h : ReadsPredAt 6 [.top] .top := by
        intro input rest hleads hrest
        have hfront := hleads.front?
        exact reads_unary.mpr (.inr (.inr ⟨by simp [hfront], by simp [hfront],
          reads_atom.mpr (.inl ⟨hleads, rfl⟩)⟩))
      exact fun k hk => h.of_le hk
  | bottom =>
      have h : ReadsPredAt 6 [.bottom] .bottom := by
        intro input rest hleads hrest
        have hfront := hleads.front?
        exact reads_unary.mpr (.inr (.inr ⟨by simp [hfront], by simp [hfront],
          reads_atom.mpr (.inr (.inl ⟨hleads, rfl⟩))⟩))
      exact fun k hk => h.of_le hk
  | not inner ih =>
      have h : ReadsPredAt 5 (Pred.not inner).tokens (.not inner) := by
        intro input rest hleads hrest
        obtain ⟨more, hnot, hinner⟩ := leads_cons.mp hleads
        have hread : Reads (unary more) inner rest :=
          readsPredAt_operand (k := 5) (ih hp) (fun h => decide_eq_true h) more rest hinner hrest
        exact reads_unary.mpr (.inl ⟨more, inner, hnot, hread, rfl⟩)
      exact fun k hk => h.of_le hk
  | binary op left right ihl ihr =>
      obtain ⟨hl, hr⟩ := Bool.and_eq_true_iff.mp hp
      cases op with
      | and => exact fun k hk => (readsPredAt_and (ihl hl) (ihr hr)).of_le hk
      | or => exact fun k hk => (readsPredAt_or (ihl hl) (ihr hr)).of_le hk
      | imp => exact fun k hk => (readsPredAt_imp (ihl hl) (ihr hr)).of_le hk
      | iff => exact fun k hk => (readsPredAt_iff (ihl hl) (ihr hr)).of_le hk
  | relation op left right =>
      have h : ReadsPredAt 6 (Pred.relation op left right).tokens (.relation op left right) := by
        intro input rest hleads hrest
        obtain ⟨mid, hleft, hmid⟩ := leads_append.mp hleads
        obtain ⟨more, hop, hright⟩ := leads_cons.mp hmid
        have hreadl := reads_expression_tokens hleft (by simp [hop.frontStrength, Token.strength])
        have hrelation : Reads (relation input) (.relation op left right) rest :=
          reads_relation.mpr ⟨left, mid, hreadl, op, more, right, hop,
            reads_expression_tokens hright hrest, rfl⟩
        -- no other alternative of the two readers above starts with that token
        obtain ⟨t, hfront, ht⟩ := startsExpr_of_expression hreadl
        have hne : ∀ t', startsExpr t' = false → front? input ≠ some t' := by
          intro t' ht' hfront'
          cases hfront.symm.trans hfront'
          rw [ht] at ht'
          cases ht'
        have hatom : Reads (atom input) (.relation op left right) rest :=
          reads_atom.mpr (.inr (.inr (.inl ⟨hne _ rfl, hne _ rfl, hrelation⟩)))
        exact reads_unary.mpr (.inr (.inr ⟨hne _ rfl, fun q => hne _ rfl, hatom⟩))
      exact fun k hk => h.of_le hk
  | quantified q decls body ih =>
      -- the body reaches to the end, so this level alone can be asked for
      simp only [Pred.wellNamed, Bool.and_eq_true, Bool.not_eq_true', List.isEmpty_eq_false_iff]
        at hp
      obtain ⟨⟨hne, -⟩, hbody⟩ := hp
      have h : ReadsPredAt 0 (Pred.quantified q decls body).tokens (.quantified q decls body) := by
        intro input rest hleads hrest
        obtain ⟨more, hq, hscope⟩ := leads_cons.mp hleads
        obtain ⟨mid, hdecls, hmid⟩ := leads_append.mp hscope
        obtain ⟨start, hdot, hstart⟩ := leads_cons.mp hmid
        have hfront := hdot.front?
        have hread := reads_declarations_tokens hne hdecls (by simp [hfront]) (by simp [hfront])
        have hpred := ih hbody 0 (Nat.zero_le _) start rest hstart hrest
        refine reads_predicate_of_unary ?_ hrest
        exact reads_unary.mpr (.inr (.inl
          ⟨q, more, decls, mid, hq, hread, start, body, hdot, hpred, rfl⟩))
      exact fun k hk => h.of_le hk

/-! ## Whole texts -/

/-- A text that spells tokens is read as its reader reads them. -/
theorem readWhole_of_spelledBy {α : Type} {reader : (ts : List Lexeme) → Reading α ts} {v : α}
    {ts : List Token} {text : String} (htext : Token.SpelledBy ts text)
    (hreads : ∀ input, Leads ts input [] → Reads (reader input) v []) :
    readWhole reader text = .ok v := by
  obtain ⟨ls, hscan, htokens⟩ := Token.exists_scan_of_spells htext.spells 0
  refine readWhole_eq_ok.mpr ⟨ls, hscan, hreads ls ?_⟩
  rw [← htokens]
  exact leads_tokens ls

end Parser

/-- A type with valid names is read back from its text. -/
theorem Ty.parse_text {t : Ty} (h : t.wellNamed = true) : Ty.parse t.text = .ok t :=
  Parser.readWhole_of_spelledBy (Ty.spelledBy h) fun input hleads =>
    (Parser.reads_ty_tokens t).2 input [] hleads (by simp)

theorem Expr.parse_text {e : Expr} (h : e.wellNamed = true) : Expr.parse e.text = .ok e :=
  Parser.readWhole_of_spelledBy (Expr.spelledBy h) fun input hleads =>
    Parser.reads_expression_tokens hleads (by simp)

theorem Pred.parse_text {p : Pred} (h : p.wellNamed = true) : Pred.parse p.text = .ok p :=
  Parser.readWhole_of_spelledBy (Pred.spelledBy h) fun input hleads =>
    Parser.readsPredAt_tokens h 0 (Nat.zero_le _) input [] hleads (by simp)

/-- A well-named formula is read back from its written form, and every
    formula that was read is well named, so it is read back from its own
    written form as well. -/
theorem written_form_read_back :
    ((∀ p : Pred, p.wellNamed = true → Pred.parse p.text = .ok p) ∧
      (∀ e : Expr, e.wellNamed = true → Expr.parse e.text = .ok e) ∧
      (∀ t : Ty, t.wellNamed = true → Ty.parse t.text = .ok t)) ∧
    (∀ text p, Pred.parse text = .ok p → p.wellNamed = true ∧ Pred.parse p.text = .ok p) ∧
    (∀ text e, Expr.parse text = .ok e → e.wellNamed = true ∧ Expr.parse e.text = .ok e) ∧
    (∀ text t, Ty.parse text = .ok t → t.wellNamed = true ∧ Ty.parse t.text = .ok t) := by
  refine ⟨⟨fun p => Pred.parse_text, fun e => Expr.parse_text, fun t => Ty.parse_text⟩, ?_, ?_, ?_⟩
  · intro text p h
    have hp := Pred.wellNamed_of_parse h
    exact ⟨hp, Pred.parse_text hp⟩
  · intro text e h
    have he := Expr.wellNamed_of_parse h
    exact ⟨he, Expr.parse_text he⟩
  · intro text t h
    have ht := Ty.wellNamed_of_parse h
    exact ⟨ht, Ty.parse_text ht⟩

/-- A predicate with a quantifier as an operand, a parenthesized left
    operand of `⇒`, both minus signs, and a product on the left of one. -/
def guarded : Pred :=
  .quantified .universal
    [⟨"x", .integer⟩, ⟨"s'", .product (.product .integer (.given "S")) (.powerSet .boolean)⟩]
    (.binary .imp
      (.binary .imp
        (.relation .lt (.neg (.integer 3))
          (.arith .sub (.ident "x") (.arith .mul (.integer (-2)) (.neg (.ident "x")))))
        .bottom)
      (.binary .and
        (.quantified .existential [⟨"b", .boolean⟩]
          (.relation .eq (.ident "b") (.bool true)))
        (.not (.binary .or .top .bottom))))

theorem guarded_read_back :
    guarded.text = "∀x:ℤ,s':(ℤ×S)×ℙ(BOOL)·(−(3)<x−-2∗−x ⇒ ⊥) ⇒ (∃b:BOOL·b=TRUE) ∧ ¬(⊤ ∨ ⊥)" ∧
    guarded.wellNamed = true ∧ Pred.parse guarded.text = .ok guarded := by
  have hnamed : guarded.wellNamed = true := by decide +kernel
  have hread := written_form_read_back.1.1 guarded hnamed
  exact ⟨by decide +kernel, written_form_read_back.2.1 guarded.text guarded hread⟩

end SequentProver
