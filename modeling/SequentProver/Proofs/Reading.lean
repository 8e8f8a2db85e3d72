import SequentProver.Formula.Parser

/-! # What the readers of formulas answer

    A reader answers a value and the tokens it left together with a bound
    on their number.  For proofs the bound is forgotten: `Reads` says which
    value is read and what is left, and one lemma for each reader says
    when it reads what, in terms of the readers it calls. -/

namespace SequentProver

/-! ## Tokens as operators -/

/-- The sign between the operands. -/
def ArithOp.token : ArithOp → Token
  | .add => .plus
  | .sub => .minus
  | .mul => .times

/-- For some operation: one of the three. -/
theorem ArithOp.exists_iff {P : ArithOp → Prop} :
    (∃ op, P op) ↔ P .add ∨ P .sub ∨ P .mul := by
  constructor
  · rintro ⟨op, h⟩
    cases op
    · exact .inl h
    · exact .inr (.inl h)
    · exact .inr (.inr h)
  · rintro (h | h | h) <;> exact ⟨_, h⟩

/-- How tightly a token binds the formulas on its two sides; arithmetic
    binds tighter than every connective. -/
def Token.strength : Token → Nat
  | .connective op => op.precedence
  | .plus => 5
  | .minus => 5
  | .times => 6
  | _ => 0

/-- Only the connective itself has its precedence as strength. -/
theorem Token.eq_connective {t : Token} (op : Connective) (h : t.strength = op.precedence) :
    t = .connective op := by
  cases t with
  | connective op' => cases op <;> cases op' <;> simp_all [strength, Connective.precedence]
  | _ => cases op <;> simp [strength, Connective.precedence] at h

namespace Parser

/-! ## Tokens at the front -/

/-- The first token. -/
def front? (ts : List Lexeme) : Option Token := ts.head?.map Lexeme.token

/-- How tightly the first token binds what stands before it. -/
def frontStrength (ts : List Lexeme) : Nat := ((front? ts).map Token.strength).getD 0

/-- The input starts with the tokens `ts` and goes on with `rest`. -/
def Leads : List Token → List Lexeme → List Lexeme → Prop
  | [], input, rest => input = rest
  | t :: ts, input, rest => ∃ offset mid, input = ⟨offset, t⟩ :: mid ∧ Leads ts mid rest

section Front

variable {t : Token} {ts us : List Token} {l : Lexeme} {input rest : List Lexeme}

@[simp] theorem front?_nil : front? [] = none := rfl

@[simp] theorem front?_cons : front? (l :: rest) = some l.token := rfl

@[simp] theorem frontStrength_nil : frontStrength [] = 0 := rfl

@[simp] theorem frontStrength_cons : frontStrength (l :: rest) = l.token.strength := rfl

@[simp] theorem leads_nil : Leads [] input rest ↔ input = rest := Iff.rfl

@[simp] theorem not_leads_nil : ¬ Leads (t :: ts) [] rest := by simp [Leads]

@[simp] theorem leads_cons_cons :
    Leads (t :: ts) (l :: input) rest ↔ l.token = t ∧ Leads ts input rest := by
  obtain ⟨offset, token⟩ := l
  simp [Leads, and_assoc]

/-- Tokens in front, one list after the other. -/
theorem leads_append :
    Leads (ts ++ us) input rest ↔ ∃ mid, Leads ts input mid ∧ Leads us mid rest := by
  induction ts generalizing input with
  | nil => simp
  | cons t ts ih =>
      cases input with
      | nil => simp
      | cons l input => simp [ih, and_assoc]

/-- Tokens in front, the first and the rest. -/
theorem leads_cons :
    Leads (t :: ts) input rest ↔ ∃ mid, Leads [t] input mid ∧ Leads ts mid rest :=
  @leads_append [t] ts input rest

/-- A list of lexemes starts with its own tokens. -/
theorem leads_tokens (ls : List Lexeme) : Leads (ls.map Lexeme.token) ls [] := by
  induction ls with
  | nil => rfl
  | cons l ls ih => exact ⟨l.offset, ls, rfl, ih⟩

/-- The first of the tokens stands in front. -/
theorem Leads.front? (h : Leads (t :: ts) input rest) : front? input = some t := by
  obtain ⟨offset, mid, rfl, -⟩ := h
  rfl

theorem Leads.frontStrength (h : Leads (t :: ts) input rest) :
    frontStrength input = t.strength := by
  obtain ⟨offset, mid, rfl, -⟩ := h
  rfl

/-- What is behind the tokens is known. -/
theorem Leads.unique {rest' : List Lexeme} (h : Leads ts input rest)
    (h' : Leads ts input rest') : rest = rest' := by
  induction ts generalizing input with
  | nil => exact h.symm.trans h'
  | cons t ts ih =>
      obtain ⟨offset, mid, rfl, hmid⟩ := h
      exact ih hmid (leads_cons_cons.mp h').2

theorem Leads.length (h : Leads ts input rest) : input.length = ts.length + rest.length := by
  induction ts generalizing input with
  | nil =>
      cases h
      simp
  | cons t ts ih =>
      obtain ⟨offset, mid, rfl, hmid⟩ := h
      simp only [List.length_cons, ih hmid]
      omega

/-- Behind a token there are fewer. -/
theorem Leads.length_lt (h : Leads (t :: ts) input rest) : rest.length < input.length := by
  rw [h.length, List.length_cons]
  omega

end Front

/-! ## Answers -/

/-- The answer is `value`, with `rest` left. -/
def Reads {α : Type} {bound : Nat} (answer : Except Stuck (Parsed α bound)) (value : α)
    (rest : List Lexeme) : Prop :=
  ∃ shorter, answer = .ok ⟨value, rest, shorter⟩

section Answers

variable {α β : Type} {bound bound' : Nat} {answer : Except Stuck (Parsed α bound)} {value : α}
  {rest : List Lexeme}

/-- An answer reads its own value. -/
@[simp] theorem reads_ok {p : Parsed α bound} :
    Reads (.ok p) value rest ↔ p.value = value ∧ p.rest = rest := by
  constructor
  · rintro ⟨_, h⟩
    cases h
    exact ⟨rfl, rfl⟩
  · rintro ⟨rfl, rfl⟩
    exact ⟨p.shorter, rfl⟩

@[simp] theorem not_reads_error {e : Stuck} :
    ¬ Reads (.error e : Except Stuck (Parsed α bound)) value rest := by
  rintro ⟨_, h⟩
  cases h

@[simp] theorem value_weaken {p : Parsed α bound} {h : bound ≤ bound'} :
    (p.weaken h).value = p.value := rfl

@[simp] theorem rest_weaken {p : Parsed α bound} {h : bound ≤ bound'} :
    (p.weaken h).rest = p.rest := rfl

@[simp] theorem value_map {p : Parsed β bound} {f : β → α} : (p.map f).value = f p.value := rfl

@[simp] theorem rest_map {p : Parsed β bound} {f : β → α} : (p.map f).rest = p.rest := rfl

/-- What a reader goes on with after an answer. -/
theorem exists_reads_ok {p : Parsed α bound} {next : α → List Lexeme → Prop} :
    (∃ value rest, Reads (.ok p) value rest ∧ next value rest) ↔ next p.value p.rest := by
  simp [and_assoc]

/-- What is left is shorter than what was there. -/
theorem Reads.length_lt (h : Reads answer value rest) : rest.length < bound := by
  obtain ⟨shorter, -⟩ := h
  exact shorter

/-- A reader reads one value only, and leaves one rest. -/
theorem Reads.unique {value' : α} {rest' : List Lexeme} (h : Reads answer value rest)
    (h' : Reads answer value' rest') : value = value' ∧ rest = rest' := by
  obtain ⟨_, rfl⟩ := h
  exact reads_ok.mp h'

end Answers

variable {ts rest : List Lexeme}

/-- A refused token does not stand in front. -/
theorem not_leads_of_expect {token : Token} {complaint : Complaint} {e : Stuck}
    (h : expect token complaint ts = .error e) : ¬ Leads [token] ts rest := by
  cases ts with
  | nil => simp
  | cons l ls =>
      rw [expect] at h
      split at h
      · cases h
      · next htoken => simp [htoken]

/-- A taken token stands in front of what is left. -/
theorem leads_iff_of_expect {token : Token} {complaint : Complaint}
    {p : Parsed Unit ts.length} (h : expect token complaint ts = .ok p) :
    Leads [token] ts rest ↔ p.rest = rest := by
  cases ts with
  | nil => cases h
  | cons l ls =>
      rw [expect] at h
      split at h
      · next htoken =>
        cases h
        simp [htoken]
      · cases h

/-! ## Types -/

/-- A type is an atom that no product sign follows, or a product. -/
theorem reads_ty {v : Ty} :
    Reads (ty ts) v rest ↔ ∃ left mid, Reads (typeAtom ts) left mid ∧
      ((front? mid ≠ some .cross ∧ left = v ∧ mid = rest) ∨
        ∃ more right, Leads [.cross] mid more ∧ Reads (ty more) right rest ∧
          .product left right = v) := by
  rw [ty]
  cases typeAtom ts with
  | error e => simp
  | ok left =>
    rw [exists_reads_ok]
    obtain ⟨left, _ | ⟨⟨offset, token⟩, more⟩, shorter⟩ := left
    · simp
    · by_cases htoken : token = .cross
      · subst htoken
        cases h : ty more <;> simp [h, and_assoc, and_comm]
      · simp [htoken]

/-- An atom is a basic type, a power set, or a type in parentheses. -/
theorem reads_typeAtom {v : Ty} :
    Reads (typeAtom ts) v rest ↔
      (Leads [.intType] ts rest ∧ .integer = v) ∨
      (Leads [.boolType] ts rest ∧ .boolean = v) ∨
      (∃ name, Leads [.ident name] ts rest ∧ .given name = v) ∨
      (∃ opened elem mid, Leads [.powerSet, .opening] ts opened ∧
        Reads (ty opened) elem mid ∧ Leads [.closing] mid rest ∧ .powerSet elem = v) ∨
      (∃ opened mid, Leads [.opening] ts opened ∧ Reads (ty opened) v mid ∧
        Leads [.closing] mid rest) := by
  rcases ts with _ | ⟨⟨offset, token⟩, more⟩
  · simp [typeAtom]
  -- each token leads into one alternative, and the others fail on their first token
  · cases token with
    | intType => simp [typeAtom, and_comm]
    | boolType => simp [typeAtom, and_comm]
    | ident name => simp [typeAtom, and_assoc, and_comm]
    | powerSet =>
      rw [typeAtom]
      cases hopened : expect .opening .expectedPowerSetOpening more with
      | error e => simp [not_leads_of_expect hopened]
      | ok opened =>
        obtain ⟨_, opened, _⟩ := opened
        simp only [leads_cons_cons, leads_iff_of_expect hopened]
        cases helem : ty opened with
        | error e => simp [helem]
        | ok elem =>
          obtain ⟨elem, mid, _⟩ := elem
          simp only
          cases hclosed : expect .closing .expectedClosing mid with
          | error e => simp [helem, and_assoc, not_leads_of_expect hclosed]
          | ok closed => simp [helem, and_assoc, and_comm, leads_iff_of_expect hclosed]
    | opening =>
      rw [typeAtom]
      cases helem : ty more with
      | error e => simp [helem]
      | ok elem =>
        obtain ⟨elem, mid, _⟩ := elem
        simp only
        cases hclosed : expect .closing .expectedClosing mid with
        | error e => simp [helem, and_assoc, not_leads_of_expect hclosed]
        | ok closed => simp [helem, and_assoc, leads_iff_of_expect hclosed]
    | _ => simp [typeAtom]

/-- Declarations are a typed name that no comma follows, or one before
    further declarations. -/
theorem reads_declarations {v : List TypedName} :
    Reads (declarations ts) v rest ↔
      ∃ name more type mid, Leads [.ident name, .colon] ts more ∧ Reads (ty more) type mid ∧
        ((front? mid ≠ some .comma ∧ [⟨name, type⟩] = v ∧ mid = rest) ∨
          ∃ next others, Leads [.comma] mid next ∧ Reads (declarations next) others rest ∧
            ⟨name, type⟩ :: others = v) := by
  rcases ts with _ | ⟨⟨offset, token⟩, more⟩
  · simp [declarations]
  · cases token with
    | ident name =>
      rw [declarations]
      cases hcolon : expect .colon .expectedColon more with
      | error e => simp [not_leads_of_expect hcolon]
      | ok colon =>
        obtain ⟨_, colon, _⟩ := colon
        simp only [leads_cons_cons, leads_iff_of_expect hcolon]
        -- the list goes on after a comma, and stops in front of anything else
        cases htype : ty colon with
        | error e => simp [htype]
        | ok type =>
          obtain ⟨type, _ | ⟨⟨offset, token⟩, next⟩, shorter⟩ := type
          · simp [htype, and_assoc]
          · by_cases htoken : token = .comma
            · subst htoken
              cases hnext : declarations next with
              | error e => simp [htype, hnext, and_assoc]
              | ok others => simp [htype, hnext, and_assoc, and_comm]
            · simp [htype, htoken, and_assoc]
    | _ => simp [declarations]

/-! ## Expressions -/

/-- The digits, with a minus sign when `negative`, are a literal of value
    `v`: they stand for an integer of 64 bits. -/
def IsLiteral (negative : Bool) (digits : String) (v : Expr) : Prop :=
  ∃ n : Int, (if negative then -(Text.digitsValue digits.toList : Int)
      else Text.digitsValue digits.toList) = n ∧
    Int64.minValue.toInt ≤ n ∧ n ≤ Int64.maxValue.toInt ∧ .integer (Int64.ofInt n) = v

/-- A literal is read if its number fits into 64 bits. -/
theorem literal_eq_ok {negative : Bool} {digits : String} {v : Expr} :
    literal negative digits rest = .ok v ↔ IsLiteral negative digits v := by
  simp only [literal, IsLiteral, exists_eq_left']
  generalize (if negative = true then -(Text.digitsValue digits.toList : Int)
    else Text.digitsValue digits.toList) = n
  rw [← and_assoc]
  split
  · next hfits => simp only [hfits, Except.ok.injEq, true_and, and_self]
  · next hfits => simp only [hfits, reduceCtorEq, false_and]

/-- An expression is a term and what the loop over terms makes of it. -/
theorem reads_expression {v : Expr} :
    Reads (expression ts) v rest ↔
      ∃ first mid, Reads (term ts) first mid ∧ Reads (moreTerms first mid) v rest := by
  rw [expression]
  cases term ts with
  | error e => simp
  | ok first =>
    rw [exists_reads_ok]
    simp only
    cases moreTerms first.value first.rest <;> simp

/-- The loop over terms stops, or takes a sign and a term and goes on. -/
theorem reads_moreTerms {left v : Expr} :
    Reads (moreTerms left ts) v rest ↔
      (frontStrength ts ≠ 5 ∧ left = v ∧ ts = rest) ∨
      ∃ op more right mid, op.precedence = 1 ∧ Leads [ArithOp.token op] ts more ∧
        Reads (term more) right mid ∧ Reads (moreTerms (.arith op left right) mid) v rest := by
  rw [ArithOp.exists_iff]
  simp only [ArithOp.token, ArithOp.precedence]
  -- only the two signs of this level go on; all others stop the loop
  rcases ts with _ | ⟨⟨offset, token⟩, more⟩
  · simp [moreTerms]
  · cases token with
    | plus =>
      rw [moreTerms]
      cases hright : term more with
      | error e => simp [hright, Token.strength]
      | ok right =>
        simp only
        cases hmore : moreTerms (.arith .add left right.value) right.rest <;>
          simp [hright, hmore, Token.strength, and_assoc]
    | minus =>
      rw [moreTerms]
      cases hright : term more with
      | error e => simp [hright, Token.strength]
      | ok right =>
        simp only
        cases hmore : moreTerms (.arith .sub left right.value) right.rest <;>
          simp [hright, hmore, Token.strength, and_assoc]
    | connective op => cases op <;> simp [moreTerms, Token.strength, Connective.precedence]
    | _ => simp [moreTerms, Token.strength]

/-- A term is a factor and what the loop over factors makes of it. -/
theorem reads_term {v : Expr} :
    Reads (term ts) v rest ↔
      ∃ first mid, Reads (factor ts) first mid ∧ Reads (moreFactors first mid) v rest := by
  rw [term]
  cases factor ts with
  | error e => simp
  | ok first =>
    rw [exists_reads_ok]
    simp only
    cases moreFactors first.value first.rest <;> simp

/-- The loop over factors stops, or takes a sign and a factor and goes on. -/
theorem reads_moreFactors {left v : Expr} :
    Reads (moreFactors left ts) v rest ↔
      (frontStrength ts ≠ 6 ∧ left = v ∧ ts = rest) ∨
      ∃ more right mid, Leads [.times] ts more ∧ Reads (factor more) right mid ∧
        Reads (moreFactors (.arith .mul left right) mid) v rest := by
  rcases ts with _ | ⟨⟨offset, token⟩, more⟩
  · simp [moreFactors]
  · cases token with
    | times =>
      rw [moreFactors]
      cases hright : factor more with
      | error e => simp [hright, Token.strength]
      | ok right =>
        simp only
        cases hmore : moreFactors (.arith .mul left right.value) right.rest <;>
          simp [hright, hmore, Token.strength, and_assoc]
    | connective op => cases op <;> simp [moreFactors, Token.strength, Connective.precedence]
    | _ => simp [moreFactors, Token.strength]

/-- A minus sign before digits belongs to the literal. -/
theorem reads_factor {v : Expr} :
    Reads (factor ts) v rest ↔
      (∃ digits, Leads [.int digits] ts rest ∧ IsLiteral false digits v) ∨
      (∃ digits, Leads [.minus, .int digits] ts rest ∧ IsLiteral true digits v) ∨
      (∃ more inner, Leads [.minus] ts more ∧ (∀ digits, front? more ≠ some (.int digits)) ∧
        Reads (factor more) inner rest ∧ .neg inner = v) ∨
      (∃ name, Leads [.ident name] ts rest ∧ .ident name = v) ∨
      (∃ value, Leads [.bool value] ts rest ∧ .bool value = v) ∨
      (∃ opened mid, Leads [.opening] ts opened ∧ Reads (expression opened) v mid ∧
        Leads [.closing] mid rest) := by
  rcases ts with _ | ⟨⟨offset, token⟩, more⟩
  · simp [factor]
  · cases token with
    | int digits =>
      rw [factor]
      simp only [← @literal_eq_ok more]
      cases hvalue : literal false digits more <;> simp [hvalue, and_assoc, and_comm]
    | minus =>
      -- a sign in front of digits is part of the literal, elsewhere a negation
      by_cases hdigits : ∃ digits, front? more = some (.int digits)
      · obtain ⟨digits, hfront⟩ := hdigits
        rcases more with _ | ⟨⟨offset', token⟩, more⟩
        · simp at hfront
        · cases Option.some.inj hfront
          rw [factor]
          simp only [← @literal_eq_ok more]
          cases hvalue : literal true digits more <;> simp [hvalue, and_assoc, and_comm]
      · have hnone : ∀ digits, front? more ≠ some (.int digits) :=
          fun digits hfront => hdigits ⟨digits, hfront⟩
        have hnot : ∀ digits, ¬ Leads [.int digits] more rest :=
          fun digits hleads => hnone digits hleads.front?
        rw [factor]
        · cases hinner : factor more <;> simp [hinner, hnone, hnot, and_assoc, and_comm]
        · rintro offset' digits more' rfl
          exact hnone digits rfl
    | ident name => simp [factor, and_assoc, and_comm]
    | bool value => simp [factor, and_assoc, and_comm]
    | opening =>
      rw [factor]
      cases hinner : expression more with
      | error e => simp [hinner]
      | ok inner =>
        obtain ⟨inner, mid, _⟩ := inner
        simp only
        cases hclosed : expect .closing .expectedClosing mid with
        | error e => simp [hinner, and_assoc, not_leads_of_expect hclosed]
        | ok closed => simp [hinner, and_assoc, leads_iff_of_expect hclosed]
    | _ => simp [factor]

/-! ## Predicates -/

/-- A relation sign is read as the token that stands in front. -/
theorem reads_relationSymbol {op : Relation} :
    Reads (relationSymbol ts) op rest ↔ Leads [.relation op] ts rest := by
  rcases ts with _ | ⟨⟨offset, token⟩, more⟩
  · simp [relationSymbol]
  · cases token <;> simp [relationSymbol]

/-- A relation is two expressions with a sign between them. -/
theorem reads_relation {v : Pred} :
    Reads (relation ts) v rest ↔
      ∃ left mid, Reads (expression ts) left mid ∧
        ∃ op more right, Leads [.relation op] mid more ∧ Reads (expression more) right rest ∧
          .relation op left right = v := by
  rw [relation]
  cases expression ts with
  | error e => simp
  | ok left =>
    rw [exists_reads_ok]
    simp only [← reads_relationSymbol]
    cases relationSymbol left.rest with
    | error e => simp
    | ok op =>
      simp only
      cases hright : expression op.rest <;> simp [hright, and_assoc, and_comm]

/-- A predicate is an implication that no `⇔` follows, or two joined by it. -/
theorem reads_predicate {v : Pred} :
    Reads (predicate ts) v rest ↔ ∃ left mid, Reads (implication ts) left mid ∧
      ((frontStrength mid ≠ 1 ∧ left = v ∧ mid = rest) ∨
        ∃ more right, Leads [.connective .iff] mid more ∧ Reads (implication more) right rest ∧
          .binary .iff left right = v) := by
  rw [predicate]
  cases implication ts with
  | error e => simp
  | ok left =>
    rw [exists_reads_ok]
    obtain ⟨left, _ | ⟨⟨offset, token⟩, more⟩, shorter⟩ := left
    · simp
    · by_cases htoken : token = .connective .iff
      · subst htoken
        cases h : implication more <;>
          simp [h, and_assoc, and_comm, Token.strength, Connective.precedence]
      · have hstrength : token.strength ≠ 1 := fun h => htoken (Token.eq_connective .iff h)
        simp [htoken, hstrength]

/-- Implications group to the right. -/
theorem reads_implication {v : Pred} :
    Reads (implication ts) v rest ↔ ∃ left mid, Reads (disjunction ts) left mid ∧
      ((frontStrength mid ≠ 2 ∧ left = v ∧ mid = rest) ∨
        ∃ more right, Leads [.connective .imp] mid more ∧ Reads (implication more) right rest ∧
          .binary .imp left right = v) := by
  rw [implication]
  cases disjunction ts with
  | error e => simp
  | ok left =>
    rw [exists_reads_ok]
    obtain ⟨left, _ | ⟨⟨offset, token⟩, more⟩, shorter⟩ := left
    · simp
    · by_cases htoken : token = .connective .imp
      · subst htoken
        cases h : implication more <;>
          simp [h, and_assoc, and_comm, Token.strength, Connective.precedence]
      · have hstrength : token.strength ≠ 2 := fun h => htoken (Token.eq_connective .imp h)
        simp [htoken, hstrength]

/-- A disjunction is a conjunction and what the loop over disjuncts makes of
    it. -/
theorem reads_disjunction {v : Pred} :
    Reads (disjunction ts) v rest ↔
      ∃ first mid, Reads (conjunction ts) first mid ∧ Reads (moreDisjuncts first mid) v rest := by
  rw [disjunction]
  cases conjunction ts with
  | error e => simp
  | ok first =>
    rw [exists_reads_ok]
    simp only
    cases moreDisjuncts first.value first.rest <;> simp

/-- The loop over disjuncts stops, or takes a sign and a conjunction and goes
    on. -/
theorem reads_moreDisjuncts {left v : Pred} :
    Reads (moreDisjuncts left ts) v rest ↔
      (frontStrength ts ≠ 3 ∧ left = v ∧ ts = rest) ∨
      ∃ more right mid, Leads [.connective .or] ts more ∧ Reads (conjunction more) right mid ∧
        Reads (moreDisjuncts (.binary .or left right) mid) v rest := by
  rcases ts with _ | ⟨⟨offset, token⟩, more⟩
  · simp [moreDisjuncts]
  · by_cases htoken : token = .connective .or
    · subst htoken
      rw [moreDisjuncts]
      cases hright : conjunction more with
      | error e => simp [hright, Token.strength, Connective.precedence]
      | ok right =>
        simp only
        cases hmore : moreDisjuncts (.binary .or left right.value) right.rest <;>
          simp [hright, hmore, Token.strength, Connective.precedence, and_assoc]
    · have hstrength : token.strength ≠ 3 := fun h => htoken (Token.eq_connective .or h)
      simp [moreDisjuncts, htoken, hstrength]

/-- A conjunction is an operand and what the loop over conjuncts makes of it.
    -/
theorem reads_conjunction {v : Pred} :
    Reads (conjunction ts) v rest ↔
      ∃ first mid, Reads (unary ts) first mid ∧ Reads (moreConjuncts first mid) v rest := by
  rw [conjunction]
  cases unary ts with
  | error e => simp
  | ok first =>
    rw [exists_reads_ok]
    simp only
    cases moreConjuncts first.value first.rest <;> simp

/-- The loop over conjuncts stops, or takes a sign and an operand and goes on.
    -/
theorem reads_moreConjuncts {left v : Pred} :
    Reads (moreConjuncts left ts) v rest ↔
      (frontStrength ts ≠ 4 ∧ left = v ∧ ts = rest) ∨
      ∃ more right mid, Leads [.connective .and] ts more ∧ Reads (unary more) right mid ∧
        Reads (moreConjuncts (.binary .and left right) mid) v rest := by
  rcases ts with _ | ⟨⟨offset, token⟩, more⟩
  · simp [moreConjuncts]
  · by_cases htoken : token = .connective .and
    · subst htoken
      rw [moreConjuncts]
      cases hright : unary more with
      | error e => simp [hright, Token.strength, Connective.precedence]
      | ok right =>
        simp only
        cases hmore : moreConjuncts (.binary .and left right.value) right.rest <;>
          simp [hright, hmore, Token.strength, Connective.precedence, and_assoc]
    · have hstrength : token.strength ≠ 4 := fun h => htoken (Token.eq_connective .and h)
      simp [moreConjuncts, htoken, hstrength]

/-- The body of a quantifier is all that can be read as a predicate. -/
theorem reads_unary {v : Pred} :
    Reads (unary ts) v rest ↔
      (∃ more inner, Leads [.not] ts more ∧ Reads (unary more) inner rest ∧ .not inner = v) ∨
      (∃ q more decls mid, Leads [.quantifier q] ts more ∧ Reads (declarations more) decls mid ∧
        ∃ start body, Leads [.dot] mid start ∧ Reads (predicate start) body rest ∧
          .quantified q decls body = v) ∨
      (front? ts ≠ some .not ∧ (∀ q, front? ts ≠ some (.quantifier q)) ∧
        Reads (atom ts) v rest) := by
  rcases ts with _ | ⟨⟨offset, token⟩, more⟩
  · simp [unary]
  -- the first token decides
  · cases token with
    | not =>
      rw [unary]
      cases h : unary more <;> simp [h, and_assoc, and_comm]
    | quantifier q =>
      rw [unary]
      cases hdecls : declarations more with
      | error e => simp [hdecls]
      | ok decls =>
        obtain ⟨decls, mid, _⟩ := decls
        simp only
        cases hdot : expect .dot .expectedDot mid with
        | error e => simp [hdecls, and_assoc, not_leads_of_expect hdot]
        | ok dot =>
          simp only
          cases hbody : predicate dot.rest <;>
            simp [hdecls, hbody, and_assoc, and_comm, leads_iff_of_expect hdot]
    | _ => simp [unary]

/-- A parenthesis starts a relation whenever one can be read there. -/
theorem reads_atom {v : Pred} :
    Reads (atom ts) v rest ↔
      (Leads [.top] ts rest ∧ .top = v) ∨
      (Leads [.bottom] ts rest ∧ .bottom = v) ∨
      (front? ts ≠ some .top ∧ front? ts ≠ some .bottom ∧ Reads (relation ts) v rest) ∨
      ((∀ w r, ¬ Reads (relation ts) w r) ∧ ∃ opened mid, Leads [.opening] ts opened ∧
        Reads (predicate opened) v mid ∧ Leads [.closing] mid rest) := by
  rcases ts with _ | ⟨⟨offset, token⟩, more⟩
  · simp [atom]
  · cases token with
    | top => simp [atom, and_comm]
    | bottom => simp [atom, and_comm]
    | opening =>
      rw [atom]
      -- the parentheses are tried as part of a relation before anything else
      cases hrelation : relation (⟨offset, .opening⟩ :: more) with
      | ok found => simp
      | error e =>
        simp only
        cases hinner : predicate more with
        | error e => simp [hinner]
        | ok inner =>
          obtain ⟨inner, mid, _⟩ := inner
          simp only
          cases hclosed : expect .closing .expectedClosing mid with
          | error e => simp [hinner, and_assoc, not_leads_of_expect hclosed]
          | ok closed => simp [hinner, and_assoc, leads_iff_of_expect hclosed]
    | _ => simp [atom]

/-! ## Where an expression may start -/

/-- The tokens an expression may start with. -/
def startsExpr : Token → Bool
  | .ident _ | .int _ | .minus | .bool _ | .opening => true
  | _ => false

/-- A factor starts with a token that starts expressions. -/
theorem startsExpr_of_factor {v : Expr} {input rest : List Lexeme}
    (h : Reads (factor input) v rest) : ∃ t, front? input = some t ∧ startsExpr t = true := by
  rcases reads_factor.mp h with ⟨digits, hleads, -⟩ | ⟨digits, hleads, -⟩ |
    ⟨more, inner, hleads, -⟩ | ⟨name, hleads, -⟩ | ⟨value, hleads, -⟩ | ⟨opened, mid, hleads, -⟩
  all_goals exact ⟨_, hleads.front?, rfl⟩

/-- An expression starts with a factor. -/
theorem exists_factor_of_expression {v : Expr} {input rest : List Lexeme}
    (h : Reads (expression input) v rest) : ∃ first mid, Reads (factor input) first mid := by
  obtain ⟨left, mid, hleft, -⟩ := reads_expression.mp h
  obtain ⟨first, mid', hfirst, -⟩ := reads_term.mp hleft
  exact ⟨first, mid', hfirst⟩

/-- An expression that starts with a parenthesis has an expression up to
    the closing one. -/
theorem exists_closing_of_expression {v : Expr} {input opened rest : List Lexeme}
    (h : Reads (expression input) v rest) (hopened : Leads [.opening] input opened) :
    ∃ inner mid, Reads (expression opened) inner mid ∧ front? mid = some .closing := by
  obtain ⟨first, mid, hfirst⟩ := exists_factor_of_expression h
  have hfront := hopened.front?
  rcases reads_factor.mp hfirst with ⟨digits, hleads, -⟩ | ⟨digits, hleads, -⟩ |
    ⟨more, inner, hleads, -⟩ | ⟨name, hleads, -⟩ | ⟨value, hleads, -⟩ |
    ⟨opened', last, hleads, hinner, hclosed⟩
  · cases hleads.front?.symm.trans hfront
  · cases hleads.front?.symm.trans hfront
  · cases hleads.front?.symm.trans hfront
  · cases hleads.front?.symm.trans hfront
  · cases hleads.front?.symm.trans hfront
  · obtain ⟨offset, more, rfl, rfl⟩ := hopened
    rw [leads_cons_cons] at hleads
    obtain ⟨-, rfl⟩ := hleads
    exact ⟨first, last, hinner, hclosed.front?⟩

theorem startsExpr_of_expression {v : Expr} {input rest : List Lexeme}
    (h : Reads (expression input) v rest) : ∃ t, front? input = some t ∧ startsExpr t = true := by
  obtain ⟨first, mid, hfirst⟩ := exists_factor_of_expression h
  exact startsExpr_of_factor hfirst

end Parser

end SequentProver
