import SequentProver.Proofs.Reading

/-! # Readers see tokens only

    A reader looks at tokens and never at their offsets: on two rows of
    lexemes with the same tokens it answers alike, the same value or the same
    complaint, with equally many lexemes left.  What it leaves, or complains
    about, is always a rear part of its input.

    Route:
    1. `Abreast`, two rests behind equally many lexemes, and `Alike`, two
       answers that agree up to offsets;
    2. what a reader does next keeps answers alike: a further reader, a token
       that is taken, one that is looked for, and the loops for operands;
    3. one lemma for each reader, tightest first, and the round through
       parentheses and bodies by the number of lexemes. -/

namespace SequentProver.Parser

variable {α β γ : Type} {ts ts' mid mid' rest rest' : List Lexeme}

/-! ## Two runs side by side -/

/-- The same tokens, wherever they stand. -/
abbrev SameTokens (ts ts' : List Lexeme) : Prop :=
  ts.map Lexeme.token = ts'.map Lexeme.token

/-- `rest` and `rest'` are left of `ts` and `ts'` behind equally many lexemes,
    and they have the same tokens. -/
structure Abreast (ts ts' rest rest' : List Lexeme) : Prop where
  same : SameTokens rest rest'
  taken : ∃ k, rest = ts.drop k ∧ rest' = ts'.drop k

theorem Abreast.refl (h : SameTokens ts ts') : Abreast ts ts' ts ts' := ⟨h, 0, rfl, rfl⟩

theorem Abreast.trans (h : Abreast ts ts' mid mid') (h' : Abreast mid mid' rest rest') :
    Abreast ts ts' rest rest' := by
  obtain ⟨-, k, rfl, rfl⟩ := h
  obtain ⟨hsame, j, rfl, rfl⟩ := h'
  exact ⟨hsame, k + j, List.drop_drop, List.drop_drop⟩

theorem Abreast.tail {l l' : Lexeme} (h : Abreast ts ts' (l :: rest) (l' :: rest')) :
    Abreast ts ts' rest rest' :=
  h.trans ⟨(List.cons.inj h.same).2, 1, rfl, rfl⟩

/-- What is left is no longer than what was there. -/
theorem Abreast.length_le (h : Abreast ts ts' rest rest') : rest.length ≤ ts.length := by
  obtain ⟨-, k, rfl, -⟩ := h
  rw [List.length_drop]
  exact Nat.sub_le _ _

/-- Rows with the same tokens end together, or go on with the same token. -/
theorem SameTokens.cases (h : SameTokens ts ts') :
    (ts = [] ∧ ts' = []) ∨ ∃ token offset offset' more more', ts = ⟨offset, token⟩ :: more ∧
      ts' = ⟨offset', token⟩ :: more' ∧ SameTokens more more' := by
  match ts, ts' with
  | [], [] => exact .inl ⟨rfl, rfl⟩
  | ⟨offset, token⟩ :: more, ⟨offset', token'⟩ :: more' =>
      obtain ⟨htoken, hmore⟩ := List.cons.inj h
      cases htoken
      exact .inr ⟨token, offset, offset', more, more', rfl, rfl, hmore⟩

/-- The same tokens stand in front. -/
theorem SameTokens.front? (h : SameTokens ts ts') : front? ts = front? ts' := by
  rw [Parser.front?, Parser.front?, ← List.head?_map, ← List.head?_map, h]

/-- The answer of a reader without the bound on what is left. -/
def outcome {bound : Nat} (answer : Except Stuck (Parsed α bound)) :
    Except Stuck (α × List Lexeme) :=
  answer.map fun p => (p.value, p.rest)

/-- Two answers, on `ts` and on `ts'`, that agree up to offsets. -/
inductive Alike (ts ts' : List Lexeme) :
    Except Stuck (α × List Lexeme) → Except Stuck (α × List Lexeme) → Prop
  | ok {v : α} {rest rest' : List Lexeme} (h : Abreast ts ts' rest rest') :
      Alike ts ts' (.ok (v, rest)) (.ok (v, rest'))
  | error {complaint : Complaint} {rest rest' : List Lexeme} (h : Abreast ts ts' rest rest') :
      Alike ts ts' (.error ⟨complaint, rest⟩) (.error ⟨complaint, rest'⟩)

/-! ## What comes next -/

section Next

variable {a a' : Except Stuck (α × List Lexeme)}

/-- Answers on what is left are answers on the whole. -/
theorem Alike.behind (h : Alike mid mid' a a') (hmid : Abreast ts ts' mid mid') :
    Alike ts ts' a a' := by
  cases h with
  | ok h => exact .ok (hmid.trans h)
  | error h => exact .error (hmid.trans h)

/-- A reader that goes on behind another one. -/
theorem Alike.bind {next : α × List Lexeme → Except Stuck (β × List Lexeme)}
    (h : Alike ts ts' a a')
    (hnext : ∀ v rest rest', Abreast ts ts' rest rest' →
      Alike rest rest' (next (v, rest)) (next (v, rest'))) :
    Alike ts ts' (a.bind next) (a'.bind next) := by
  cases h with
  | ok h => exact (hnext _ _ _ h).behind h
  | error h => exact .error h

/-- Answers stay alike if their values are changed in the same way. -/
theorem Alike.map (f : α → β) (h : Alike ts ts' a a') :
    Alike ts ts' (a.map fun p => (f p.1, p.2)) (a'.map fun p => (f p.1, p.2)) := by
  cases h with
  | ok h => exact .ok h
  | error h => exact .error h

/-- A token that has to be there. -/
theorem alike_expect (token : Token) (complaint : Complaint) (h : SameTokens ts ts') :
    Alike ts ts' (outcome (expect token complaint ts)) (outcome (expect token complaint ts')) := by
  obtain ⟨rfl, rfl⟩ | ⟨front, o, o', more, more', rfl, rfl, hmore⟩ := h.cases
  · exact .error (.refl h)
  · rw [expect, expect]
    simp only
    split
    · exact .ok (Abreast.refl h).tail
    · exact .error (.refl h)

/-- What is done if the given token stands in front, and what else. -/
def eat (token : Token) (rest : List Lexeme) (yes : List Lexeme → γ) (no : γ) : γ :=
  match rest with
  | [] => no
  | l :: more => if l.token = token then yes more else no

/-- Taking a token that may stand in front, alike on both sides. -/
theorem alike_eat {token : Token} {v : α} {yes : List Lexeme → Except Stuck (α × List Lexeme)}
    (h : SameTokens rest rest')
    (hyes : ∀ more more', SameTokens more more' → more.length < rest.length →
      Alike more more' (yes more) (yes more')) :
    Alike rest rest' (eat token rest yes (.ok (v, rest))) (eat token rest' yes (.ok (v, rest'))) := by
  obtain ⟨rfl, rfl⟩ | ⟨front, o, o', more, more', rfl, rfl, hmore⟩ := h.cases
  · exact .ok (.refl h)
  · rw [eat, eat]
    simp only
    split
    · exact (hyes more more' hmore (Nat.lt_succ_self _)).behind (Abreast.refl h).tail
    · exact .ok (.refl h)

end Next

/-! ## Readers -/

/-- The reader answers alike on rows of fewer than `n` lexemes. -/
def SteadyBelow (n : Nat) (reader : (ts : List Lexeme) → Reading α ts) : Prop :=
  ∀ ts ts', ts.length < n → SameTokens ts ts' →
    Alike ts ts' (outcome (reader ts)) (outcome (reader ts'))

@[simp] theorem outcome_error {bound : Nat} (e : Stuck) :
    outcome (.error e : Except Stuck (Parsed α bound)) = .error e := rfl

@[simp] theorem outcome_ok {bound : Nat} (p : Parsed α bound) :
    outcome (.ok p) = .ok (p.value, p.rest) := rfl

/-- A value in front of a closing parenthesis. -/
def closing (p : α × List Lexeme) : Except Stuck (α × List Lexeme) :=
  (outcome (expect .closing .expectedClosing p.2)).map fun q => (p.1, q.2)

/-- Expecting a closing parenthesis, alike on both sides. -/
theorem alike_closing (v : α) (h : SameTokens rest rest') :
    Alike rest rest' (closing (v, rest)) (closing (v, rest')) :=
  (alike_expect .closing .expectedClosing h).map fun _ => v

/-! ## Types -/

section Types

variable (offset : Nat) (ts more : List Lexeme)

/-- A type is a component, and behind a product sign another type. -/
theorem outcome_ty :
    outcome (ty ts) = (outcome (typeAtom ts)).bind fun p =>
      eat .cross p.2 (fun more => (outcome (ty more)).map fun q => (.product p.1 q.1, q.2))
        (.ok (p.1, p.2)) := by
  rw [ty]
  cases typeAtom ts with
  | error e => rfl
  | ok left =>
    obtain ⟨left, _ | ⟨⟨offset, token⟩, more⟩, shorter⟩ := left
    · rfl
    · by_cases htoken : token = .cross
      · subst htoken
        cases h : ty more <;> simp [h, Except.map, Except.bind, eat]
      · simp [Except.bind, eat, htoken]

/-- Behind `ℙ` stands a type in parentheses. -/
theorem outcome_typeAtom_powerSet :
    outcome (typeAtom (⟨offset, .powerSet⟩ :: more)) =
      (outcome (expect .opening .expectedPowerSetOpening more)).bind fun p =>
        (outcome (ty p.2)).bind fun q => closing (.powerSet q.1, q.2) := by
  rw [typeAtom]
  cases expect .opening .expectedPowerSetOpening more with
  | error e => rfl
  | ok opened =>
    cases hinner : ty opened.rest with
    | error e => simp [hinner, Except.bind]
    | ok inner =>
      cases hclosed : expect .closing .expectedClosing inner.rest <;>
        simp [hinner, hclosed, closing, Except.bind, Except.map]

/-- Behind a parenthesis stands a type and the other parenthesis. -/
theorem outcome_typeAtom_opening :
    outcome (typeAtom (⟨offset, .opening⟩ :: more)) = (outcome (ty more)).bind closing := by
  rw [typeAtom]
  cases ty more with
  | error e => rfl
  | ok inner =>
    cases hclosed : expect .closing .expectedClosing inner.rest <;>
      simp [hclosed, closing, Except.bind, Except.map]

end Types

/-- Components are read alike if shorter types are. -/
theorem steady_typeAtom {n : Nat} (h : SteadyBelow n ty) : SteadyBelow (n + 1) typeAtom := by
  intro ts ts' hlt hsame
  obtain ⟨rfl, rfl⟩ | ⟨token, o, o', more, more', rfl, rfl, hmore⟩ := hsame.cases
  · simp only [typeAtom, outcome_error]
    exact .error (.refl hsame)
  · have hshort : more.length < n := Nat.lt_of_succ_lt_succ hlt
    have htail : Abreast _ _ more more' := (Abreast.refl hsame).tail
    -- the type inside the parentheses is shorter, which is where `h` comes in
    cases token with
    | powerSet =>
        rw [outcome_typeAtom_powerSet, outcome_typeAtom_powerSet]
        refine Alike.behind ?_ htail
        refine (alike_expect _ _ hmore).bind fun _ opened opened' hopened => ?_
        have hlt' := Nat.lt_of_le_of_lt hopened.length_le hshort
        refine (h opened opened' hlt' hopened.same).bind fun v rest rest' hrest => ?_
        exact alike_closing (Ty.powerSet v) hrest.same
    | opening =>
        rw [outcome_typeAtom_opening, outcome_typeAtom_opening]
        refine Alike.behind ((h more more' hshort hmore).bind fun v rest rest' hrest => ?_) htail
        exact alike_closing v hrest.same
    | intType | boolType | ident =>
        simp only [typeAtom, outcome_ok]
        exact .ok htail
    | _ =>
        simp only [typeAtom, outcome_error]
        exact .error (.refl hsame)

/-- Types are read alike, by induction on their length. -/
theorem steady_ty (n : Nat) : SteadyBelow n ty := by
  induction n with
  | zero => exact fun ts ts' hlt => absurd hlt (Nat.not_lt_zero _)
  | succ n ih =>
      intro ts ts' hlt hsame
      rw [outcome_ty, outcome_ty]
      refine (steady_typeAtom ih ts ts' hlt hsame).bind fun left mid mid' hmid => ?_
      refine alike_eat hmid.same fun more more' hmore hshorter => ?_
      have hle := hmid.length_le
      exact (ih more more' (by omega) hmore).map (Ty.product left)

/-- A declaration is a name, a colon and a type; behind a comma stand others.
    -/
theorem outcome_declarations (offset : Nat) (name : String) (more : List Lexeme) :
    outcome (declarations (⟨offset, .ident name⟩ :: more)) =
      (outcome (expect .colon .expectedColon more)).bind fun p =>
        (outcome (ty p.2)).bind fun q =>
          eat .comma q.2
            (fun next => (outcome (declarations next)).map fun r => (⟨name, q.1⟩ :: r.1, r.2))
            (.ok ([⟨name, q.1⟩], q.2)) := by
  rw [declarations]
  cases expect .colon .expectedColon more with
  | error e => rfl
  | ok colon =>
    -- a declaration is the last one unless a comma follows
    cases htype : ty colon.rest with
    | error e => simp [htype, Except.bind]
    | ok type =>
      obtain ⟨type, _ | ⟨⟨offset, token⟩, next⟩, shorter⟩ := type
      · simp [htype, Except.bind, eat]
      · by_cases htoken : token = .comma
        · subst htoken
          cases hnext : declarations next <;> simp [htype, hnext, Except.map, Except.bind, eat]
        · simp [htype, Except.bind, eat, htoken]

/-- Declarations are read alike, by induction on their length. -/
theorem steady_declarations (n : Nat) : SteadyBelow n declarations := by
  -- on the length of the input, as declarations read further declarations
  induction n with
  | zero => exact fun ts ts' hlt => absurd hlt (Nat.not_lt_zero _)
  | succ n ih =>
      intro ts ts' hlt hsame
      obtain ⟨rfl, rfl⟩ | ⟨token, o, o', more, more', rfl, rfl, hmore⟩ := hsame.cases
      · simp only [declarations, outcome_error]
        exact .error (.refl hsame)
      · have hshort : more.length < n := Nat.lt_of_succ_lt_succ hlt
        cases token with
        | ident name =>
            rw [outcome_declarations, outcome_declarations]
            refine Alike.behind ?_ (Abreast.refl hsame).tail
            refine (alike_expect _ _ hmore).bind fun _ colon colon' hcolon => ?_
            have hlt' := Nat.lt_of_le_of_lt hcolon.length_le hshort
            refine (steady_ty n colon colon' hlt' hcolon.same).bind fun v mid mid' hmid => ?_
            refine alike_eat hmid.same fun next next' hnext hshorter => ?_
            have hle := hmid.length_le
            exact (ih next next' (by omega) hnext).map (⟨name, v⟩ :: ·)
        | _ =>
            simp only [declarations, outcome_error]
            exact .error (.refl hsame)

/-! ## Loops for operands -/

/-- The reader goes on while a sign stands in front that joins what it has
    with a further operand. -/
def Iterates (sign : Token → Option (α → α → α)) (operand : (ts : List Lexeme) → Reading α ts)
    (following : α → (ts : List Lexeme) → Except Stuck (Parsed α (ts.length + 1))) : Prop :=
  (∀ left, outcome (following left []) = .ok (left, [])) ∧
  ∀ left l more, outcome (following left (l :: more)) =
    (sign l.token).elim (.ok (left, l :: more)) fun join =>
      (outcome (operand more)).bind fun p => outcome (following (join left p.1) p.2)

/-- A loop reads alike if its operands are read alike. -/
theorem Iterates.alike {n : Nat} {sign : Token → Option (α → α → α)}
    {operand : (ts : List Lexeme) → Reading α ts}
    {following : α → (ts : List Lexeme) → Except Stuck (Parsed α (ts.length + 1))}
    (hloop : Iterates sign operand following) (hoperand : SteadyBelow n operand) (left : α)
    (hlt : ts.length < n) (hsame : SameTokens ts ts') :
    Alike ts ts' (outcome (following left ts)) (outcome (following left ts')) := by
  -- the loop is bounded by the tokens left, not by the `n` of its operand
  obtain ⟨k, hk⟩ : ∃ k, ts.length < k := ⟨n, hlt⟩
  induction k generalizing ts ts' left with
  | zero => exact absurd hk (Nat.not_lt_zero _)
  | succ k ih =>
      obtain ⟨rfl, rfl⟩ | ⟨token, o, o', more, more', rfl, rfl, hmore⟩ := hsame.cases
      · rw [hloop.1]
        exact .ok (.refl hsame)
      · rw [hloop.2, hloop.2]
        cases sign token with
        | none => exact .ok (.refl hsame)
        | some join =>
            have hshort : more.length < n := Nat.lt_trans (Nat.lt_succ_self _) hlt
            refine Alike.behind ?_ (Abreast.refl hsame).tail
            refine (hoperand more more' hshort hmore).bind fun v rest rest' hrest => ?_
            have hle := hrest.length_le
            exact ih (join left v) (Nat.lt_of_le_of_lt hle hshort) hrest.same
              (Nat.lt_of_le_of_lt hle (Nat.lt_of_succ_lt_succ hk))

/-! ## Expressions -/

/-- A literal leaves, and complains about, what stands behind it. -/
theorem alike_literal (negative : Bool) (digits : String) (h : Abreast ts ts' rest rest') :
    Alike ts ts' ((literal negative digits rest).map fun v => (v, rest))
      ((literal negative digits rest').map fun v => (v, rest')) := by
  simp only [literal]
  generalize (if negative = true then -(Text.digitsValue digits.toList : Int)
    else Text.digitsValue digits.toList) = value
  split
  · exact .ok h
  · exact .error h

section Expressions

variable (offset : Nat) (ts more : List Lexeme)

/-- The signs between terms. -/
def sumSign : Token → Option (Expr → Expr → Expr)
  | .plus => some (.arith .add)
  | .minus => some (.arith .sub)
  | _ => none

/-- The sign between factors. -/
def productSign : Token → Option (Expr → Expr → Expr)
  | .times => some (.arith .mul)
  | _ => none

/-- An expression is a term and the loop over terms. -/
theorem outcome_expression :
    outcome (expression ts) = (outcome (term ts)).bind fun p => outcome (moreTerms p.1 p.2) := by
  rw [expression]
  cases term ts with
  | error e => rfl
  | ok first =>
    cases hsum : moreTerms first.value first.rest <;> simp [hsum, Except.bind]

/-- The loop over terms goes on at the signs of sums. -/
theorem iterates_moreTerms : Iterates sumSign term moreTerms := by
  refine ⟨fun left => by simp [moreTerms], ?_⟩
  rintro left ⟨offset, token⟩ more
  cases token with
  | plus | minus =>
      rw [moreTerms]
      cases term more with
      | error e => rfl
      | ok right =>
        simp only [sumSign, Option.elim_some, outcome_ok, Except.bind]
        split <;> simp [*]
  | _ => simp [moreTerms, sumSign]

/-- A term is a factor and the loop over factors. -/
theorem outcome_term :
    outcome (term ts) = (outcome (factor ts)).bind fun p => outcome (moreFactors p.1 p.2) := by
  rw [term]
  cases factor ts with
  | error e => rfl
  | ok first =>
    cases hproduct : moreFactors first.value first.rest <;> simp [hproduct, Except.bind]

/-- The loop over factors goes on at the sign of products. -/
theorem iterates_moreFactors : Iterates productSign factor moreFactors := by
  refine ⟨fun left => by simp [moreFactors], ?_⟩
  rintro left ⟨offset, token⟩ more
  cases token with
  | times =>
      rw [moreFactors]
      cases factor more with
      | error e => rfl
      | ok right =>
        simp only [productSign, Option.elim_some, outcome_ok, Except.bind]
        split <;> simp [*]
  | _ => simp [moreFactors, productSign]

theorem outcome_factor_int (digits : String) :
    outcome (factor (⟨offset, .int digits⟩ :: more)) =
      (literal false digits more).map fun v => (v, more) := by
  rw [factor]
  cases literal false digits more <;> rfl

/-- Behind a minus sign it is a negative one. -/
theorem outcome_factor_negative (offset' : Nat) (digits : String) :
    outcome (factor (⟨offset, .minus⟩ :: ⟨offset', .int digits⟩ :: more)) =
      (literal true digits more).map fun v => (v, more) := by
  rw [factor]
  cases literal true digits more <;> rfl

/-- Behind a minus sign anything else is negated. -/
theorem outcome_factor_minus (h : ∀ digits, front? more ≠ some (.int digits)) :
    outcome (factor (⟨offset, .minus⟩ :: more)) =
      (outcome (factor more)).map fun p => (.neg p.1, p.2) := by
  rw [factor]
  · cases factor more <;> rfl
  · rintro offset' digits rest rfl
    exact h digits rfl

/-- Behind a parenthesis stands an expression and the other parenthesis. -/
theorem outcome_factor_opening :
    outcome (factor (⟨offset, .opening⟩ :: more)) = (outcome (expression more)).bind closing := by
  rw [factor]
  cases expression more with
  | error e => rfl
  | ok inner =>
    cases hclosed : expect .closing .expectedClosing inner.rest <;>
      simp [hclosed, closing, Except.bind, Except.map]

end Expressions

/-- Factors are read alike if shorter expressions are. -/
theorem steady_factor {n : Nat} (h : SteadyBelow n expression) : SteadyBelow (n + 1) factor := by
  intro ts ts' hlt hsame
  -- a run of minus signs is read by recursion on the tokens, not through `h`
  induction ts generalizing ts' with
  | nil =>
      obtain rfl := List.map_eq_nil_iff.mp hsame.symm
      simp only [factor, outcome_error]
      exact .error (.refl hsame)
  | cons l more ih =>
      obtain ⟨hnil, -⟩ | ⟨token, o, o', more, more', heq, rfl, hmore⟩ := hsame.cases
      · cases hnil
      cases heq
      have hshort : more.length < n := Nat.lt_of_succ_lt_succ hlt
      have htail : Abreast _ _ more more' := (Abreast.refl hsame).tail
      cases token with
      | int digits =>
          rw [outcome_factor_int, outcome_factor_int]
          exact alike_literal false digits htail
      | minus =>
          -- a sign before digits belongs to the literal
          by_cases hint : ∃ digits, front? more = some (.int digits)
          · obtain ⟨digits, hfront⟩ := hint
            obtain ⟨rfl, rfl⟩ | ⟨token, p, p', rest, rest', rfl, rfl, hrest⟩ := hmore.cases
            · cases hfront
            · cases hfront
              rw [outcome_factor_negative, outcome_factor_negative]
              exact alike_literal true digits htail.tail
          · have hnot : ∀ digits, front? more ≠ some (.int digits) :=
              fun digits hfront => hint ⟨digits, hfront⟩
            rw [outcome_factor_minus _ _ hnot, outcome_factor_minus _ _ (hmore.front? ▸ hnot)]
            exact ((ih more' (Nat.lt_succ_of_lt hshort) hmore).map Expr.neg).behind htail
      | opening =>
          rw [outcome_factor_opening, outcome_factor_opening]
          refine Alike.behind ((h more more' hshort hmore).bind fun v rest rest' hrest => ?_) htail
          exact alike_closing v hrest.same
      | ident | bool =>
          simp only [factor, outcome_ok]
          exact .ok htail
      | _ =>
          simp only [factor, outcome_error]
          exact .error (.refl hsame)

/-- Terms are read alike if factors are. -/
theorem steady_term {n : Nat} (h : SteadyBelow n factor) : SteadyBelow n term := by
  intro ts ts' hlt hsame
  rw [outcome_term, outcome_term]
  refine (h ts ts' hlt hsame).bind fun v rest rest' hrest => ?_
  exact iterates_moreFactors.alike h v (Nat.lt_of_le_of_lt hrest.length_le hlt) hrest.same

/-- Expressions are read alike, by induction on their length. -/
theorem steady_expression (n : Nat) : SteadyBelow n expression := by
  induction n with
  | zero => exact fun ts ts' hlt => absurd hlt (Nat.not_lt_zero _)
  | succ n ih =>
      have hterm := steady_term (steady_factor ih)
      intro ts ts' hlt hsame
      rw [outcome_expression, outcome_expression]
      refine (hterm ts ts' hlt hsame).bind fun v rest rest' hrest => ?_
      exact iterates_moreTerms.alike hterm v (Nat.lt_of_le_of_lt hrest.length_le hlt) hrest.same

/-! ## Predicates -/

section Predicates

variable (offset : Nat) (ts more : List Lexeme)

/-- The sign of one connective. -/
def connectiveSign (op : Connective) : Token → Option (Pred → Pred → Pred)
  | .connective op' => if op' = op then some (.binary op) else none
  | _ => none

/-- A relation is two expressions with a sign between them. -/
theorem outcome_relation :
    outcome (relation ts) = (outcome (expression ts)).bind fun p =>
      (outcome (relationSymbol p.2)).bind fun q =>
        (outcome (expression q.2)).map fun r => (.relation q.1 p.1 r.1, r.2) := by
  rw [relation]
  cases expression ts with
  | error e => rfl
  | ok left =>
    cases hop : relationSymbol left.rest with
    | error e => simp [hop, Except.bind]
    | ok op =>
      cases hright : expression op.rest <;> simp [hop, hright, Except.bind, Except.map]

/-- A predicate is an implication, and behind `⇔` another one. -/
theorem outcome_predicate :
    outcome (predicate ts) = (outcome (implication ts)).bind fun p =>
      eat (.connective .iff) p.2
        (fun more => (outcome (implication more)).map fun q => (.binary .iff p.1 q.1, q.2))
        (.ok (p.1, p.2)) := by
  rw [predicate]
  cases implication ts with
  | error e => rfl
  | ok left =>
    obtain ⟨left, _ | ⟨⟨offset, token⟩, more⟩, shorter⟩ := left
    · rfl
    · by_cases htoken : token = .connective .iff
      · subst htoken
        cases h : implication more <;> simp [h, Except.map, Except.bind, eat]
      · simp [Except.bind, eat, htoken]

/-- An implication is a disjunction, and behind `⇒` another implication. -/
theorem outcome_implication :
    outcome (implication ts) = (outcome (disjunction ts)).bind fun p =>
      eat (.connective .imp) p.2
        (fun more => (outcome (implication more)).map fun q => (.binary .imp p.1 q.1, q.2))
        (.ok (p.1, p.2)) := by
  rw [implication]
  cases disjunction ts with
  | error e => rfl
  | ok left =>
    obtain ⟨left, _ | ⟨⟨offset, token⟩, more⟩, shorter⟩ := left
    · rfl
    · by_cases htoken : token = .connective .imp
      · subst htoken
        cases h : implication more <;> simp [h, Except.map, Except.bind, eat]
      · simp [Except.bind, eat, htoken]

/-- A disjunction is a conjunction and the loop over disjuncts. -/
theorem outcome_disjunction :
    outcome (disjunction ts) =
      (outcome (conjunction ts)).bind fun p => outcome (moreDisjuncts p.1 p.2) := by
  rw [disjunction]
  cases conjunction ts with
  | error e => rfl
  | ok first =>
    cases hwhole : moreDisjuncts first.value first.rest <;> simp [hwhole, Except.bind]

/-- The loop over disjuncts goes on at `∨`. -/
theorem iterates_moreDisjuncts : Iterates (connectiveSign .or) conjunction moreDisjuncts := by
  refine ⟨fun left => by simp [moreDisjuncts], ?_⟩
  rintro left ⟨offset, token⟩ more
  by_cases htoken : token = .connective .or
  · subst htoken
    rw [moreDisjuncts]
    cases conjunction more with
    | error e => rfl
    | ok right =>
      simp only [connectiveSign, if_true, Option.elim_some, outcome_ok, Except.bind]
      split <;> simp [*]
  · cases token <;> simp_all [moreDisjuncts, connectiveSign]

/-- A conjunction is an operand and the loop over conjuncts. -/
theorem outcome_conjunction :
    outcome (conjunction ts) =
      (outcome (unary ts)).bind fun p => outcome (moreConjuncts p.1 p.2) := by
  rw [conjunction]
  cases unary ts with
  | error e => rfl
  | ok first =>
    cases hwhole : moreConjuncts first.value first.rest <;> simp [hwhole, Except.bind]

/-- The loop over conjuncts goes on at `∧`. -/
theorem iterates_moreConjuncts : Iterates (connectiveSign .and) unary moreConjuncts := by
  refine ⟨fun left => by simp [moreConjuncts], ?_⟩
  rintro left ⟨offset, token⟩ more
  by_cases htoken : token = .connective .and
  · subst htoken
    rw [moreConjuncts]
    cases unary more with
    | error e => rfl
    | ok right =>
      simp only [connectiveSign, if_true, Option.elim_some, outcome_ok, Except.bind]
      split <;> simp [*]
  · cases token <;> simp_all [moreConjuncts, connectiveSign]

theorem outcome_unary_not :
    outcome (unary (⟨offset, .not⟩ :: more)) =
      (outcome (unary more)).map fun p => (.not p.1, p.2) := by
  rw [unary]
  cases unary more <;> rfl

/-- Behind a quantifier stand declarations, a dot and a predicate. -/
theorem outcome_unary_quantifier (q : Quantifier) :
    outcome (unary (⟨offset, .quantifier q⟩ :: more)) =
      (outcome (declarations more)).bind fun decls =>
        (outcome (expect .dot .expectedDot decls.2)).bind fun dot =>
          (outcome (predicate dot.2)).map fun body => (.quantified q decls.1 body.1, body.2) := by
  rw [unary]
  cases declarations more with
  | error e => rfl
  | ok decls =>
    cases hdot : expect .dot .expectedDot decls.rest with
    | error e => simp [hdot, Except.bind]
    | ok dot =>
      cases hbody : predicate dot.rest <;> simp [hdot, hbody, Except.bind, Except.map]

/-- Behind a parenthesis a relation is tried first, then a predicate. -/
theorem outcome_atom_opening :
    outcome (atom (⟨offset, .opening⟩ :: more)) =
      (outcome (relation (⟨offset, .opening⟩ :: more))).tryCatch fun _ =>
        (outcome (predicate more)).bind closing := by
  rw [atom]
  cases relation (⟨offset, .opening⟩ :: more) with
  | ok found => rfl
  | error e =>
    cases predicate more with
    | error e => rfl
    | ok inner =>
      -- the relation failed, and so the right side is the closing of the predicate
      refine Eq.trans ?_ (rfl : closing (inner.value, inner.rest) = _)
      cases hclosed : expect .closing .expectedClosing inner.rest <;>
        simp [hclosed, closing, Except.map]

end Predicates

theorem steady_relation (n : Nat) : SteadyBelow n relation := by
  intro ts ts' hlt hsame
  rw [outcome_relation, outcome_relation]
  refine (steady_expression n ts ts' hlt hsame).bind fun left mid mid' hmid => ?_
  have hsymbol : Alike mid mid' (outcome (relationSymbol mid)) (outcome (relationSymbol mid')) := by
    obtain ⟨rfl, rfl⟩ | ⟨token, o, o', more, more', rfl, rfl, hmore⟩ := hmid.same.cases
    · exact .error (.refl hmid.same)
    · cases token with
      | relation op => exact .ok (Abreast.refl hmid.same).tail
      | _ => exact .error (.refl hmid.same)
  refine hsymbol.bind fun op rest rest' hrest => ?_
  have hlt' := Nat.lt_of_le_of_lt (hmid.trans hrest).length_le hlt
  exact (steady_expression n rest rest' hlt' hrest.same).map (Pred.relation op left)

section Round

variable {n : Nat}

/-- A relation that fails is forgotten; a predicate in parentheses is read
    then, from the same place on. -/
theorem steady_atom (h : SteadyBelow n predicate) : SteadyBelow (n + 1) atom := by
  intro ts ts' hlt hsame
  have hrelation := steady_relation (n + 1) ts ts' hlt hsame
  obtain ⟨rfl, rfl⟩ | ⟨token, o, o', more, more', rfl, rfl, hmore⟩ := hsame.cases
  · simpa only [atom] using hrelation
  · have hshort : more.length < n := Nat.lt_of_succ_lt_succ hlt
    have htail : Abreast _ _ more more' := (Abreast.refl hsame).tail
    cases token with
    | top | bottom =>
        simp only [atom, outcome_ok]
        exact .ok htail
    | opening =>
        rw [outcome_atom_opening, outcome_atom_opening]
        -- a parenthesis is read as a relation first, and as a predicate if that fails
        generalize outcome (relation (⟨o, .opening⟩ :: more)) = answer at hrelation ⊢
        generalize outcome (relation (⟨o', .opening⟩ :: more')) = answer' at hrelation ⊢
        cases hrelation with
        | ok hrest => exact .ok hrest
        | error _ =>
            refine Alike.behind ?_ htail
            refine (h more more' hshort hmore).bind fun v rest rest' hrest => ?_
            exact alike_closing v hrest.same
    | _ => simpa only [atom] using hrelation

/-- Operands are read alike if shorter predicates are. -/
theorem steady_unary (h : SteadyBelow n predicate) : SteadyBelow (n + 1) unary := by
  intro ts ts' hlt hsame
  have hatom := steady_atom h ts ts' hlt hsame
  -- negations nest by recursion on the tokens, not through `h`
  induction ts generalizing ts' with
  | nil =>
      obtain rfl := List.map_eq_nil_iff.mp hsame.symm
      simpa only [unary] using hatom
  | cons l more ih =>
      obtain ⟨hnil, -⟩ | ⟨token, o, o', more, more', heq, rfl, hmore⟩ := hsame.cases
      · cases hnil
      cases heq
      have hshort : more.length < n := Nat.lt_of_succ_lt_succ hlt
      have htail : Abreast _ _ more more' := (Abreast.refl hsame).tail
      cases token with
      | not =>
          rw [outcome_unary_not, outcome_unary_not]
          have hlt' := Nat.lt_succ_of_lt hshort
          exact ((ih more' hlt' hmore (steady_atom h more more' hlt' hmore)).map Pred.not).behind
            htail
      | quantifier q =>
          rw [outcome_unary_quantifier, outcome_unary_quantifier]
          refine Alike.behind ?_ htail
          refine (steady_declarations n more more' hshort hmore).bind fun decls mid mid' hmid => ?_
          refine (alike_expect _ _ hmid.same).bind fun _ start start' hstart => ?_
          have hlt' := Nat.lt_of_le_of_lt (hmid.trans hstart).length_le hshort
          exact (h start start' hlt' hstart.same).map (Pred.quantified q decls)
      | _ => simpa only [unary] using hatom

/-- Conjunctions are read alike if operands are. -/
theorem steady_conjunction (h : SteadyBelow n unary) : SteadyBelow n conjunction := by
  intro ts ts' hlt hsame
  rw [outcome_conjunction, outcome_conjunction]
  refine (h ts ts' hlt hsame).bind fun v rest rest' hrest => ?_
  exact iterates_moreConjuncts.alike h v (Nat.lt_of_le_of_lt hrest.length_le hlt) hrest.same

/-- Disjunctions are read alike if conjunctions are. -/
theorem steady_disjunction (h : SteadyBelow n conjunction) : SteadyBelow n disjunction := by
  intro ts ts' hlt hsame
  rw [outcome_disjunction, outcome_disjunction]
  refine (h ts ts' hlt hsame).bind fun v rest rest' hrest => ?_
  exact iterates_moreDisjuncts.alike h v (Nat.lt_of_le_of_lt hrest.length_le hlt) hrest.same

/-- Implications are read alike if disjunctions are, by induction on their
    length. -/
theorem steady_implication (h : SteadyBelow n disjunction) : SteadyBelow n implication := by
  intro ts ts' hlt hsame
  obtain ⟨k, hk⟩ : ∃ k, ts.length < k := ⟨n, hlt⟩
  induction k generalizing ts ts' with
  | zero => exact absurd hk (Nat.not_lt_zero _)
  | succ k ih =>
      rw [outcome_implication, outcome_implication]
      refine (h ts ts' hlt hsame).bind fun left mid mid' hmid => ?_
      refine alike_eat hmid.same fun more more' hmore hshorter => ?_
      have hle := hmid.length_le
      exact (ih more more' (by omega) hmore (by omega)).map (Pred.binary .imp left)

end Round

/-- Predicates are read alike, by induction on their length. -/
theorem steady_predicate (n : Nat) : SteadyBelow n predicate := by
  induction n with
  | zero => exact fun ts ts' hlt => absurd hlt (Nat.not_lt_zero _)
  | succ n ih =>
      have himplication :=
        steady_implication (steady_disjunction (steady_conjunction (steady_unary ih)))
      intro ts ts' hlt hsame
      rw [outcome_predicate, outcome_predicate]
      refine (himplication ts ts' hlt hsame).bind fun left mid mid' hmid => ?_
      refine alike_eat hmid.same fun more more' hmore hshorter => ?_
      have hle := hmid.length_le
      exact (himplication more more' (by omega) hmore).map (Pred.binary .iff left)

/-! ## Whole texts -/

section Whole

variable {reader : (ts : List Lexeme) → Reading α ts} {text text' : String}

/-- Two verdicts on a text: the same value, or the same complaint. -/
inductive SameVerdict : Except FormulaError α → Except FormulaError α → Prop
  | ok (v : α) : SameVerdict (.ok v) (.ok v)
  | error (offset offset' : Nat) (complaint : Complaint) :
      SameVerdict (.error (.unreadable offset complaint)) (.error (.unreadable offset' complaint))

/-- Reading a whole text, by the outcome on its tokens. -/
theorem readWhole_eq (h : Token.tokenize text = .ok ts) :
    readWhole reader text =
      match outcome (reader ts) with
      | .error stuck => .error (.unreadable (offsetOf text stuck.rest) stuck.complaint)
      | .ok (v, []) => .ok v
      | .ok (_, rest) => .error (.unreadable (offsetOf text rest) .trailingInput) := by
  simp only [readWhole, h]
  cases reader ts with
  | error stuck => rfl
  | ok parsed => obtain ⟨v, _ | ⟨l, rest⟩, shorter⟩ := parsed <;> rfl

/-- Texts that are cut into the same tokens are read alike. -/
theorem sameVerdict_of_sameTokens (hreader : ∀ n, SteadyBelow n reader)
    (h : Token.tokenize text = .ok ts) (h' : Token.tokenize text' = .ok ts')
    (hsame : SameTokens ts ts') : SameVerdict (readWhole reader text) (readWhole reader text') := by
  rw [readWhole_eq h, readWhole_eq h']
  have halike := hreader _ ts ts' (Nat.lt_succ_self _) hsame
  generalize outcome (reader ts) = answer at halike ⊢
  generalize outcome (reader ts') = answer' at halike ⊢
  cases halike with
  | error hrest => exact .error _ _ _
  | ok hrest =>
      obtain ⟨rfl, rfl⟩ | ⟨token, o, o', more, more', rfl, rfl, -⟩ := hrest.same.cases
      · exact .ok _
      · exact .error _ _ _

/-- A complaint of a reader is about the end of the text or about one of its
    tokens. -/
theorem readWhole_eq_error (hreader : ∀ n, SteadyBelow n reader)
    (h : Token.tokenize text = .ok ts) {e : FormulaError} (herror : readWhole reader text = .error e) :
    ∃ k complaint, e = .unreadable (offsetOf text (ts.drop k)) complaint := by
  rw [readWhole_eq h] at herror
  have halike := hreader _ ts ts (Nat.lt_succ_self _) rfl
  generalize outcome (reader ts) = answer at halike herror
  cases halike with
  | error hrest =>
      obtain ⟨-, k, rfl, -⟩ := hrest
      cases herror
      exact ⟨k, _, rfl⟩
  | @ok v rest _ hrest =>
      obtain ⟨-, k, hk, -⟩ := hrest
      cases rest with
      | nil => cases herror
      | cons l rest =>
          cases herror
          exact ⟨k, _, by rw [hk]⟩

end Whole

end SequentProver.Parser
