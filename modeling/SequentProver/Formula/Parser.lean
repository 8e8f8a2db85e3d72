import SequentProver.Formula.Token

/-! # Reading formulas

    Recursive descent over tokens.  Precedence, loosest first: `⇔` (which
    does not chain), `⇒` (to the right), `∨`, `∧` (to the left), `¬`; the
    body of a quantifier reaches as far as it can.  An opening parenthesis
    may start a relation or enclose a predicate: the relation is tried
    first.

    Each reader answers the value and the tokens it left, with the fact
    that there are fewer of them; this is what makes the descent end. -/

namespace SequentProver

namespace Parser

/-! ## Answers of a reader -/

/-- A complaint and the tokens from the place it is about. -/
structure Stuck where
  complaint : Complaint
  rest : List Lexeme

/-- A value and the tokens left after it, fewer than `bound`. -/
structure Parsed (α : Type) (bound : Nat) where
  value : α
  rest : List Lexeme
  shorter : rest.length < bound

/-- What reading an `α` from the front of `ts` answers; a reader that
    succeeds has consumed at least one token. -/
abbrev Reading (α : Type) (ts : List Lexeme) := Except Stuck (Parsed α ts.length)

/-- The same answer under a larger bound. -/
def Parsed.weaken {α : Type} {m n : Nat} (p : Parsed α m) (h : m ≤ n) : Parsed α n :=
  ⟨p.value, p.rest, Nat.lt_of_lt_of_le p.shorter h⟩

/-- Change the value. -/
def Parsed.map {α β : Type} {n : Nat} (f : α → β) (p : Parsed α n) : Parsed β n :=
  ⟨f p.value, p.rest, p.shorter⟩

/-- Take one given token. -/
def expect (token : Token) (complaint : Complaint) : (ts : List Lexeme) → Reading Unit ts
  | [] => .error ⟨complaint, []⟩
  | t :: rest =>
    if t.token = token then .ok ⟨(), rest, Nat.lt_succ_self _⟩
    else .error ⟨complaint, t :: rest⟩

/-! ## Types -/

mutual

/-- A type: an atom, or a product of an atom with a type. -/
def ty (ts : List Lexeme) : Reading Ty ts :=
  match typeAtom ts with
  | .error e => .error e
  | .ok left =>
    match hrest : left.rest with
    | ⟨_, .cross⟩ :: rest =>
      have hlt : rest.length + 1 < ts.length := by
        have := left.shorter
        rw [hrest] at this
        exact this
      match ty rest with
      | .error e => .error e
      | .ok right => .ok ((right.map (Ty.product left.value)).weaken (by omega))
    | _ => .ok left
termination_by ts.length * 2 + 1

/-- A type that needs no parentheses as a component. -/
def typeAtom : (ts : List Lexeme) → Reading Ty ts
  | [] => .error ⟨.unexpectedEnd, []⟩
  | ⟨_, .intType⟩ :: rest => .ok ⟨.integer, rest, Nat.lt_succ_self _⟩
  | ⟨_, .boolType⟩ :: rest => .ok ⟨.boolean, rest, Nat.lt_succ_self _⟩
  | ⟨_, .ident name⟩ :: rest => .ok ⟨.given name, rest, Nat.lt_succ_self _⟩
  -- what follows the first parenthesis is shorter, which is what the recursion needs
  | ⟨_, .powerSet⟩ :: rest =>
    match expect .opening .expectedPowerSetOpening rest with
    | .error e => .error e
    | .ok opened =>
      have := opened.shorter
      match ty opened.rest with
      | .error e => .error e
      | .ok inner =>
        have := inner.shorter
        match expect .closing .expectedClosing inner.rest with
        | .error e => .error e
        | .ok closed =>
          .ok ((closed.map fun _ => Ty.powerSet inner.value).weaken
            (by simp only [List.length_cons]; omega))
  | ⟨_, .opening⟩ :: rest =>
    match ty rest with
    | .error e => .error e
    | .ok inner =>
      have := inner.shorter
      match expect .closing .expectedClosing inner.rest with
      | .error e => .error e
      | .ok closed =>
        .ok ((closed.map fun _ => inner.value).weaken
          (by simp only [List.length_cons]; omega))
  | ts => .error ⟨.expectedType, ts⟩
termination_by ts => ts.length * 2

end

/-- The declarations of a quantifier, separated by commas. -/
def declarations : (ts : List Lexeme) → Reading (List TypedName) ts
  | ⟨_, .ident name⟩ :: rest =>
    match expect .colon .expectedColon rest with
    | .error e => .error e
    | .ok colon =>
      match ty colon.rest with
      | .error e => .error e
      | .ok type =>
        have hlt : type.rest.length + 2 < rest.length + 1 := by
          have := colon.shorter
          have := type.shorter
          omega
        -- a name that a comma follows is not the last one
        match hrest : type.rest with
        | ⟨_, .comma⟩ :: more =>
          have hmore : more.length + 3 < rest.length + 1 := by
            rw [hrest] at hlt
            exact hlt
          match declarations more with
          | .error e => .error e
          | .ok others =>
            .ok ((others.map (⟨name, type.value⟩ :: ·)).weaken
              (by simp only [List.length_cons]; omega))
        | _ =>
          .ok ((type.map fun t => [⟨name, t⟩]).weaken (by
            have := colon.shorter
            simp only [List.length_cons]
            omega))
  | ts => .error ⟨.expectedBinder, ts⟩
termination_by ts => ts.length
decreasing_by
  simp only [List.length_cons]
  omega

/-! ## Expressions -/

/-- An integer literal; it has to fit in 64 bits with its sign. -/
def literal (negative : Bool) (digits : String) (rest : List Lexeme) : Except Stuck Expr :=
  let magnitude : Int := Text.digitsValue digits.toList
  let value := if negative then -magnitude else magnitude
  if Int64.minValue.toInt ≤ value ∧ value ≤ Int64.maxValue.toInt then
    .ok (.integer (Int64.ofInt value))
  else .error ⟨.integerOutOfRange (if negative then "-" ++ digits else digits), rest⟩

mutual

/-- Terms joined by `+` and `−`, grouped to the left. -/
def expression (ts : List Lexeme) : Reading Expr ts :=
  match term ts with
  | .error e => .error e
  | .ok first =>
    have := first.shorter
    match moreTerms first.value first.rest with
    | .error e => .error e
    | .ok sum => .ok (sum.weaken (by omega))
termination_by ts.length * 5 + 4

/-- The terms that follow `left`. -/
def moreTerms (left : Expr) : (ts : List Lexeme) → Except Stuck (Parsed Expr (ts.length + 1))
  | ⟨_, .plus⟩ :: rest =>
    match term rest with
    | .error e => .error e
    | .ok right =>
      have := right.shorter
      match moreTerms (.arith .add left right.value) right.rest with
      | .error e => .error e
      | .ok sum => .ok (sum.weaken (by simp only [List.length_cons]; omega))
  | ⟨_, .minus⟩ :: rest =>
    match term rest with
    | .error e => .error e
    | .ok right =>
      have := right.shorter
      match moreTerms (.arith .sub left right.value) right.rest with
      | .error e => .error e
      | .ok sum => .ok (sum.weaken (by simp only [List.length_cons]; omega))
  | ts => .ok ⟨left, ts, Nat.lt_succ_self _⟩
termination_by ts => ts.length * 5 + 3

/-- Factors joined by `∗`, grouped to the left. -/
def term (ts : List Lexeme) : Reading Expr ts :=
  match factor ts with
  | .error e => .error e
  | .ok first =>
    have := first.shorter
    match moreFactors first.value first.rest with
    | .error e => .error e
    | .ok product => .ok (product.weaken (by omega))
termination_by ts.length * 5 + 2

/-- The factors that follow `left`. -/
def moreFactors (left : Expr) : (ts : List Lexeme) → Except Stuck (Parsed Expr (ts.length + 1))
  | ⟨_, .times⟩ :: rest =>
    match factor rest with
    | .error e => .error e
    | .ok right =>
      have := right.shorter
      match moreFactors (.arith .mul left right.value) right.rest with
      | .error e => .error e
      | .ok product => .ok (product.weaken (by simp only [List.length_cons]; omega))
  | ts => .ok ⟨left, ts, Nat.lt_succ_self _⟩
termination_by ts => ts.length * 5 + 1

/-- A literal, a name, a truth value, a negated factor, or an expression
    in parentheses.  A minus sign belongs to a literal right after it. -/
def factor : (ts : List Lexeme) → Reading Expr ts
  | [] => .error ⟨.unexpectedEnd, []⟩
  | ⟨_, .int digits⟩ :: rest =>
    match literal false digits rest with
    | .error e => .error e
    | .ok value => .ok ⟨value, rest, Nat.lt_succ_self _⟩
  -- a sign and the digits after it are one literal, so that the smallest integer can be read
  | ⟨_, .minus⟩ :: ⟨_, .int digits⟩ :: rest =>
    match literal true digits rest with
    | .error e => .error e
    | .ok value => .ok ⟨value, rest, by simp only [List.length_cons]; omega⟩
  | ⟨_, .minus⟩ :: rest =>
    match factor rest with
    | .error e => .error e
    | .ok inner => .ok ((inner.map Expr.neg).weaken (by simp))
  | ⟨_, .ident name⟩ :: rest => .ok ⟨.ident name, rest, Nat.lt_succ_self _⟩
  | ⟨_, .bool value⟩ :: rest => .ok ⟨.bool value, rest, Nat.lt_succ_self _⟩
  | ⟨_, .opening⟩ :: rest =>
    -- in an expression no parenthesis holds a relation
    match expression rest with
    | .error e => .error e
    | .ok inner =>
      have := inner.shorter
      match expect .closing .expectedClosing inner.rest with
      | .error e => .error e
      | .ok closed =>
        .ok ((closed.map fun _ => inner.value).weaken
          (by simp only [List.length_cons]; omega))
  | ts => .error ⟨.expectedExpression, ts⟩
termination_by ts => ts.length * 5

end

/-! ## Predicates -/

/-- Take a relation symbol. -/
def relationSymbol : (ts : List Lexeme) → Reading Relation ts
  | ⟨_, .relation op⟩ :: rest => .ok ⟨op, rest, Nat.lt_succ_self _⟩
  | ts => .error ⟨.expectedRelation, ts⟩

/-- Two expressions with a relation between them. -/
def relation (ts : List Lexeme) : Reading Pred ts :=
  match expression ts with
  | .error e => .error e
  | .ok left =>
    match relationSymbol left.rest with
    | .error e => .error e
    | .ok op =>
      match expression op.rest with
      | .error e => .error e
      | .ok right =>
        .ok ((right.map (Pred.relation op.value left.value)).weaken (by
          have := left.shorter
          have := op.shorter
          omega))

mutual

/-- An implication, or two joined by `⇔`. -/
def predicate (ts : List Lexeme) : Reading Pred ts :=
  match implication ts with
  | .error e => .error e
  | .ok left =>
    match hrest : left.rest with
    | ⟨_, .connective .iff⟩ :: rest =>
      have hlt : rest.length + 1 < ts.length := by
        have := left.shorter
        rw [hrest] at this
        exact this
      match implication rest with
      | .error e => .error e
      | .ok right => .ok ((right.map (Pred.binary .iff left.value)).weaken (by omega))
    | _ => .ok left
termination_by ts.length * 8 + 7

/-- Disjunctions joined by `⇒`, grouped to the right. -/
def implication (ts : List Lexeme) : Reading Pred ts :=
  match disjunction ts with
  | .error e => .error e
  | .ok left =>
    match hrest : left.rest with
    | ⟨_, .connective .imp⟩ :: rest =>
      have hlt : rest.length + 1 < ts.length := by
        have := left.shorter
        rw [hrest] at this
        exact this
      match implication rest with
      | .error e => .error e
      | .ok right => .ok ((right.map (Pred.binary .imp left.value)).weaken (by omega))
    | _ => .ok left
termination_by ts.length * 8 + 6

/-- Conjunctions joined by `∨`, grouped to the left. -/
def disjunction (ts : List Lexeme) : Reading Pred ts :=
  match conjunction ts with
  | .error e => .error e
  | .ok first =>
    have := first.shorter
    match moreDisjuncts first.value first.rest with
    | .error e => .error e
    | .ok whole => .ok (whole.weaken (by omega))
termination_by ts.length * 8 + 5

/-- The disjuncts that follow `left`. -/
def moreDisjuncts (left : Pred) :
    (ts : List Lexeme) → Except Stuck (Parsed Pred (ts.length + 1))
  | ⟨_, .connective .or⟩ :: rest =>
    match conjunction rest with
    | .error e => .error e
    | .ok right =>
      have := right.shorter
      match moreDisjuncts (.binary .or left right.value) right.rest with
      | .error e => .error e
      | .ok whole => .ok (whole.weaken (by simp only [List.length_cons]; omega))
  | ts => .ok ⟨left, ts, Nat.lt_succ_self _⟩
termination_by ts => ts.length * 8 + 4

/-- Negations and atoms joined by `∧`, grouped to the left. -/
def conjunction (ts : List Lexeme) : Reading Pred ts :=
  match unary ts with
  | .error e => .error e
  | .ok first =>
    have := first.shorter
    match moreConjuncts first.value first.rest with
    | .error e => .error e
    | .ok whole => .ok (whole.weaken (by omega))
termination_by ts.length * 8 + 3

/-- The conjuncts that follow `left`. -/
def moreConjuncts (left : Pred) :
    (ts : List Lexeme) → Except Stuck (Parsed Pred (ts.length + 1))
  | ⟨_, .connective .and⟩ :: rest =>
    match unary rest with
    | .error e => .error e
    | .ok right =>
      have := right.shorter
      match moreConjuncts (.binary .and left right.value) right.rest with
      | .error e => .error e
      | .ok whole => .ok (whole.weaken (by simp only [List.length_cons]; omega))
  | ts => .ok ⟨left, ts, Nat.lt_succ_self _⟩
termination_by ts => ts.length * 8 + 2

/-- A negation, a quantified predicate, or an atom. -/
def unary : (ts : List Lexeme) → Reading Pred ts
  | ⟨_, .not⟩ :: rest =>
    match unary rest with
    | .error e => .error e
    | .ok inner => .ok ((inner.map Pred.not).weaken (by simp))
  | ⟨_, .quantifier q⟩ :: rest =>
    match declarations rest with
    | .error e => .error e
    | .ok decls =>
      have := decls.shorter
      match expect .dot .expectedDot decls.rest with
      | .error e => .error e
      | .ok dot =>
        have := dot.shorter
        -- the body of a quantifier goes as far as it can
        match predicate dot.rest with
        | .error e => .error e
        | .ok body =>
          .ok ((body.map (Pred.quantified q decls.value)).weaken
            (by simp only [List.length_cons]; omega))
  | ts => atom ts
termination_by ts => ts.length * 8 + 1

/-- `⊤`, `⊥`, a relation, or a predicate in parentheses. -/
def atom : (ts : List Lexeme) → Reading Pred ts
  | ⟨_, .top⟩ :: rest => .ok ⟨.top, rest, Nat.lt_succ_self _⟩
  | ⟨_, .bottom⟩ :: rest => .ok ⟨.bottom, rest, Nat.lt_succ_self _⟩
  | ⟨offset, .opening⟩ :: rest =>
    match relation (⟨offset, .opening⟩ :: rest) with
    | .ok found => .ok found
    | .error _ =>
      match predicate rest with
      | .error e => .error e
      | .ok inner =>
        have := inner.shorter
        match expect .closing .expectedClosing inner.rest with
        | .error e => .error e
        | .ok closed =>
          .ok ((closed.map fun _ => inner.value).weaken
            (by simp only [List.length_cons]; omega))
  | ts => relation ts
termination_by ts => ts.length * 8

end

/-! ## Whole texts -/

/-- The byte offset a complaint is about: the next token, or the end. -/
def offsetOf (text : String) : List Lexeme → Nat
  | [] => text.utf8ByteSize
  | t :: _ => t.offset

/-- Read a whole text with one of the readers. -/
def readWhole {α : Type} (reader : (ts : List Lexeme) → Reading α ts) (text : String) :
    Except FormulaError α :=
  match Token.tokenize text with
  | .error (offset, complaint) => .error (.unreadable offset complaint)
  | .ok ts =>
    match reader ts with
    | .error stuck => .error (.unreadable (offsetOf text stuck.rest) stuck.complaint)
    | .ok parsed =>
      match parsed.rest with
      | [] => .ok parsed.value
      | rest => .error (.unreadable (offsetOf text rest) .trailingInput)

end Parser

/-- Read a predicate. -/
def Pred.parse (text : String) : Except FormulaError Pred :=
  Parser.readWhole Parser.predicate text

/-- Read an expression. -/
def Expr.parse (text : String) : Except FormulaError Expr :=
  Parser.readWhole Parser.expression text

/-- Read a type. -/
def Ty.parse (text : String) : Except FormulaError Ty :=
  Parser.readWhole Parser.ty text

end SequentProver
