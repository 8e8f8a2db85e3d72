import SequentProver.Proofs.Grammar

/-! # Greedy reading

    The grammar is ambiguous: the body of a quantifier may end before any
    connective.  The reader takes the longest body and never goes back, and
    since `⇔` does not chain this might take a `⇔` that is needed outside.
    It does not: whatever is derivable is read to its end.

    The idea is to forget the grouping.  A predicate is a row of operands
    with connectives between them, and all that the grouping asks of the row
    is that there is room for every `⇔`: the whole has room for one, and each
    quantifier makes room for one more behind it.  A reader that stops inside
    a row leaves a chain of connectives and operands for which there is still
    room, so the readers around it can go on.

    Route:
    1. `Operand`, `Chain` and `Row`, and that a derivation is a row;
    2. `Spans`, what a reader makes of a row: up to the end of the tokens or
       a closing parenthesis it never fails, and it never stops too early;
    3. one lemma for each reader, tightest first, and the round from
       predicates to bodies and parentheses by the number of tokens;
    4. the bodies that are read are the longest ones. -/

namespace SequentProver

namespace Grammar

open SequentProver.Parser

variable {k j n : Nat} {ts more mid rest r : List Lexeme} {v : Pred} {op : Connective}

/-! ## Rows -/

/-- An atom behind negations and quantifiers, with the number of the
    quantifiers. -/
inductive Operand : List Lexeme → Nat → List Lexeme → Prop
  | atom {ts rest : List Lexeme} {v : Pred} (h : Derives Anywhere .atom ts v rest) :
      Operand ts 0 rest
  | not {ts more rest : List Lexeme} {q : Nat} (hsign : Leads [.not] ts more)
      (h : Operand more q rest) : Operand ts q rest
  | quantified {ts more mid start rest : List Lexeme} {kind : Quantifier}
      {decls : List TypedName} {q : Nat} (hquantifier : Leads [.quantifier kind] ts more)
      (hdecls : DerivesDecls more decls mid) (hdot : Leads [.dot] mid start)
      (h : Operand start q rest) : Operand ts (q + 1) rest

/-- Connectives, each with an operand behind it, and room for `k` more `⇔`
    than the quantifiers among them make. -/
inductive Chain : Nat → List Lexeme → List Lexeme → Prop
  | nil (k : Nat) (ts : List Lexeme) : Chain k ts ts
  | join {k q : Nat} {op : Connective} {ts more mid rest : List Lexeme} (hop : op ≠ .iff)
      (hsign : Leads [.connective op] ts more) (hoperand : Operand more q mid)
      (hrest : Chain (k + q) mid rest) : Chain k ts rest
  | iff {k q : Nat} {ts more mid rest : List Lexeme} (hsign : Leads [.connective .iff] ts more)
      (hoperand : Operand more q mid) (hrest : Chain (k + q) mid rest) : Chain (k + 1) ts rest

/-- An operand and a chain. -/
def Row (k : Nat) (ts rest : List Lexeme) : Prop :=
  ∃ q mid, Operand ts q mid ∧ Chain (k + q) mid rest

/-- A chain with more room is a chain. -/
theorem Chain.mono {k' : Nat} (h : Chain k ts rest) (hk : k ≤ k') : Chain k' ts rest := by
  induction h generalizing k' with
  | nil _ ts => exact .nil k' ts
  | join hop hsign hoperand _ ih =>
      exact .join hop hsign hoperand (ih (Nat.add_le_add_right hk _))
  | iff hsign hoperand _ ih =>
      obtain ⟨k', rfl⟩ := Nat.exists_eq_add_of_le hk
      rw [Nat.add_right_comm]
      refine .iff hsign hoperand (ih ?_)
      omega

/-- The room that two chains leave adds up. -/
theorem Chain.append (h : Chain k ts mid) (h' : Chain j mid rest) : Chain (k + j) ts rest := by
  induction h with
  | nil k _ => exact h'.mono (Nat.le_add_left j k)
  | join hop hsign hoperand _ ih =>
      refine .join hop hsign hoperand ?_
      rw [Nat.add_right_comm]
      exact ih h'
  | iff hsign hoperand _ ih =>
      rw [Nat.add_right_comm]
      refine .iff hsign hoperand ?_
      rw [Nat.add_right_comm]
      exact ih h'

/-- A chain behind a row makes a longer row, with the room of both. -/
theorem Row.append (h : Row k ts mid) (h' : Chain j mid rest) : Row (k + j) ts rest := by
  obtain ⟨q, last, hoperand, hchain⟩ := h
  refine ⟨q, last, hoperand, ?_⟩
  rw [Nat.add_right_comm]
  exact hchain.append h'

/-- A row behind a connective is a chain. -/
theorem Row.join (hop : op ≠ .iff) (hsign : Leads [.connective op] ts more)
    (h : Row k more rest) : Chain k ts rest := by
  obtain ⟨q, mid, hoperand, hchain⟩ := h
  exact .join hop hsign hoperand hchain

/-- A row behind `⇔` is a chain with room for one more. -/
theorem Row.iff (hsign : Leads [.connective .iff] ts more) (h : Row k more rest) :
    Chain (k + 1) ts rest := by
  obtain ⟨q, mid, hoperand, hchain⟩ := h
  exact .iff hsign hoperand hchain

/-- The room for `⇔` outside of all quantifiers. -/
def PredLevel.room : PredLevel → Nat
  | .predicate => 1
  | _ => 0

/-- What is derived is a row. -/
theorem Derives.row {l : PredLevel} (h : Derives Anywhere l ts v rest) : Row l.room ts rest := by
  induction h with
  | @implication ts rest v _ ih => exact ih.append (.nil 1 rest)
  | iff _ hsign _ ihl ihr => exact ihl.append (ihr.iff hsign)
  | disjunction _ ih => exact ih
  | imp _ hsign _ ihl ihr => exact ihl.append (ihr.join (by decide) hsign)
  | conjunction _ ih => exact ih
  | or _ hsign _ ihl ihr => exact ihl.append (ihr.join (by decide) hsign)
  | unary _ ih => exact ih
  | and _ hsign _ ihl ihr => exact ihl.append (ihr.join (by decide) hsign)
  | atom _ ih => exact ih
  | not hsign _ ih =>
      obtain ⟨q, mid, hoperand, hchain⟩ := ih
      exact ⟨q, mid, .not hsign hoperand, hchain⟩
  | quantified hquantifier hdecls hdot _ _ ih =>
      -- the room in the body becomes room behind the quantifier
      obtain ⟨q, mid, hoperand, hchain⟩ := ih
      refine ⟨q + 1, mid, .quantified hquantifier hdecls hdot hoperand, ?_⟩
      exact hchain.mono (by simp only [PredLevel.room]; omega)
  | @top ts rest h => exact ⟨0, rest, .atom (.top h), .nil 0 rest⟩
  | @bottom ts rest h => exact ⟨0, rest, .atom (.bottom h), .nil 0 rest⟩
  | @parens ts opened mid rest v hopened hinner hclosed _ =>
      exact ⟨0, rest, .atom (.parens hopened hinner hclosed), .nil 0 rest⟩
  | @relation ts mid more rest op left right hleft hsign hright =>
      exact ⟨0, rest, .atom (.relation hleft hsign hright), .nil 0 rest⟩

/-! ## The front of a chain -/

/-- Behind a connective the chain is a row again. -/
theorem Chain.of_join (h : Chain k ts rest) (hop : op ≠ .iff)
    (hsign : Leads [.connective op] ts more) : ts = rest ∨ Row k more rest := by
  cases h with
  | nil => exact .inl rfl
  | join _ hsign' hoperand hchain =>
      cases hsign.front?.symm.trans hsign'.front?
      obtain rfl := hsign.unique hsign'
      exact .inr ⟨_, _, hoperand, hchain⟩
  | iff hsign' _ _ =>
      cases hsign.front?.symm.trans hsign'.front?
      exact absurd rfl hop

/-- Behind a `⇔` there is room for one less. -/
theorem Chain.of_iff (h : Chain (k + 1) ts rest) (hsign : Leads [.connective .iff] ts more) :
    ts = rest ∨ Row k more rest := by
  cases h with
  | nil => exact .inl rfl
  | join hop hsign' _ _ =>
      cases hsign.front?.symm.trans hsign'.front?
      exact absurd rfl hop
  | iff hsign' hoperand hchain =>
      obtain rfl := hsign.unique hsign'
      exact .inr ⟨_, _, hoperand, hchain⟩

/-- No connective of precedence `k` or more stands in front. -/
def Stops (k : Nat) (ts : List Lexeme) : Prop :=
  ∀ op, front? ts = some (.connective op) → op.precedence < k

/-- With a higher precedence there is less to stop at. -/
theorem Stops.mono {k' : Nat} (h : Stops k ts) (hk : k ≤ k') : Stops k' ts := by
  intro op hfront
  exact Nat.lt_of_lt_of_le (h op hfront) hk

/-- No connective has a precedence of five. -/
theorem stops_five (ts : List Lexeme) : Stops 5 ts := by
  intro op _
  cases op <;> decide

/-- A reader that has looked for a connective in vain stops before it. -/
theorem Stops.lower (h : Stops (op.precedence + 1) ts)
    (hfront : frontStrength ts ≠ op.precedence) : Stops op.precedence ts := by
  intro op' hop'
  have hle := Nat.le_of_lt_succ (h op' hop')
  refine Nat.lt_of_le_of_ne hle fun heq => hfront ?_
  rw [frontStrength, hop']
  exact heq

/-- A chain that stops at once is empty. -/
theorem Chain.eq_of_stops (h : Chain k ts rest) (hstops : Stops 1 ts) : ts = rest := by
  have hnone : ∀ op, front? ts ≠ some (.connective op) := by
    intro op hfront
    have hlt := hstops op hfront
    cases op <;> exact absurd hlt (by decide)
  cases h with
  | nil => rfl
  | join _ hsign _ _ => exact absurd hsign.front? (hnone _)
  | iff hsign _ _ => exact absurd hsign.front? (hnone _)

/-- Without room for a `⇔` a chain ends where the readers stop. -/
theorem Chain.eq_of_zero (h : Chain 0 ts rest) (hstops : Stops 2 ts) : ts = rest := by
  cases h with
  | nil => rfl
  | @join _ _ op _ _ _ _ hop hsign _ _ =>
      have hlt := hstops op hsign.front?
      cases op with
      | iff => exact absurd rfl hop
      | _ => exact absurd hlt (by decide)

/-! ## What a reader makes of a row -/

/-- Nothing can follow but a closing parenthesis. -/
def Closed (rest : List Lexeme) : Prop := rest = [] ∨ front? rest = some .closing

/-- In front of what is closed stands a closing parenthesis or nothing. -/
theorem Closed.front? (h : Closed rest) {t : Token} (hfront : front? rest = some t) :
    t = .closing := by
  rcases h with rfl | h
  · cases hfront
  · exact Option.some.inj (hfront.symm.trans h)

/-- A connective in front can be followed. -/
theorem not_closed_of_connective (hsign : Leads [.connective op] rest more) : ¬ Closed rest := by
  intro hclosed
  cases hclosed.front? hsign.front?

/-- The answer of a reader at a row up to `rest`.  If the row is all there
    is, something is read.  What is left is a chain with room for `j` more
    `⇔` that no connective of precedence `k` leads; or the reader has gone
    beyond the row. -/
structure Spans (k j : Nat) (rest : List Lexeme) {bound : Nat}
    (answer : Except Stuck (Parsed Pred bound)) : Prop where
  reads : Closed rest → ∃ v r, Reads answer v r
  left : ∀ v r, Reads answer v r →
    (Chain j r rest ∧ Stops k r) ∨ (¬ Closed rest ∧ r.length ≤ rest.length)

/-- Something is read, and what is left is a chain. -/
theorem Spans.exists_chain {bound : Nat} {answer : Except Stuck (Parsed Pred bound)}
    (h : Spans k j rest answer) (hclosed : Closed rest) :
    ∃ v r, Reads answer v r ∧ Chain j r rest ∧ Stops k r := by
  obtain ⟨v, r, hread⟩ := h.reads hclosed
  rcases h.left v r hread with hchain | ⟨hopen, -⟩
  · exact ⟨v, r, hread, hchain⟩
  · exact absurd hclosed hopen

/-- A reader that wraps the value of another one. -/
theorem Spans.map {k' bound bound' : Nat} {answer : Except Stuck (Parsed Pred bound)}
    {answer' : Except Stuck (Parsed Pred bound')} (h : Spans k j rest answer) (hk : k ≤ k')
    (wrap : Pred → Pred)
    (hwrap : ∀ v r, Reads answer' v r ↔ ∃ inner, Reads answer inner r ∧ wrap inner = v) :
    Spans k' j rest answer' where
  reads hclosed := by
    obtain ⟨inner, r, hread⟩ := h.reads hclosed
    exact ⟨wrap inner, r, (hwrap _ _).mpr ⟨inner, hread, rfl⟩⟩
  left v r hread := by
    obtain ⟨inner, hinner, -⟩ := (hwrap v r).mp hread
    rcases h.left inner r hinner with ⟨hchain, hstops⟩ | hbeyond
    · exact .inl ⟨hchain, hstops.mono hk⟩
    · exact .inr hbeyond

/-- A reader of a family reads rows of fewer than `n` tokens. -/
def SpansBelow (n k : Nat) (reader : (ts : List Lexeme) → Reading Pred ts) : Prop :=
  ∀ ⦃ts rest : List Lexeme⦄ ⦃j : Nat⦄, ts.length < n → Row j ts rest → Spans k j rest (reader ts)

/-- The reader of predicates uses the room for one `⇔`. -/
def PredicateSpansBelow (n : Nat) : Prop :=
  ∀ ⦃ts rest : List Lexeme⦄ ⦃j : Nat⦄, ts.length < n → Row (j + 1) ts rest →
    Spans 2 j rest (predicate ts)

/-! ## Atoms and operands -/

/-- A predicate in parentheses is read up to the closing one. -/
theorem exists_reads_predicate (hpredicate : PredicateSpansBelow n) (hlt : ts.length < n)
    (h : Derives Anywhere .predicate ts v mid) (hclosing : Leads [.closing] mid rest) :
    ∃ w, Reads (predicate ts) w mid := by
  obtain ⟨w, r, hread, hchain, hstops⟩ :=
    (hpredicate hlt h.row).exists_chain (.inr hclosing.front?)
  obtain rfl := hchain.eq_of_zero hstops
  exact ⟨w, hread⟩

/-- The tokens before a relation symbol start an expression. -/
theorem front?_ne_of_relation {e : Expr} {op : Relation} (hleft : DerivesExpr .sum ts e mid)
    (hsign : Leads [.relation op] mid more) :
    Reads (expression ts) e mid ∧ ∀ t, startsExpr t = false → front? ts ≠ some t := by
  have hread : Reads (expression ts) e mid := by
    refine hleft.reads ?_
    rw [hsign.frontStrength]
    exact Nat.zero_lt_succ 4
  refine ⟨hread, fun t ht hfront => ?_⟩
  obtain ⟨t', hfront', ht'⟩ := startsExpr_of_expression hread
  cases hfront.symm.trans hfront'
  rw [ht] at ht'
  cases ht'

/-- A relation is read at least as far as it is derived. -/
theorem relation_length_le {left right : Expr} {op : Relation} {w : Pred}
    (hleft : DerivesExpr .sum ts left mid) (hsign : Leads [.relation op] mid more)
    (hright : DerivesExpr .sum more right rest) (hread : Reads (atom ts) w r) :
    r.length ≤ rest.length := by
  obtain ⟨hexpr, hfront⟩ := front?_ne_of_relation hleft hsign
  rcases reads_atom.mp hread with ⟨htop, -⟩ | ⟨hbottom, -⟩ | ⟨-, -, hrelation⟩ |
    ⟨-, opened, last, hopened, hinner, -⟩
  · exact absurd htop.front? (hfront _ rfl)
  · exact absurd hbottom.front? (hfront _ rfl)
  · obtain ⟨left', mid', hleft', op', more', right', hsign', hright', -⟩ :=
      reads_relation.mp hrelation
    obtain ⟨-, rfl⟩ := hexpr.unique hleft'
    cases hsign.front?.symm.trans hsign'.front?
    obtain rfl := hsign.unique hsign'
    exact hright.length_le hright'
  · -- a predicate in parentheses leaves no room for the left expression
    have hderives : Derives Anywhere .predicate opened w last :=
      derives_of_predicate (fun _ => trivial) hinner
    exact absurd hexpr (not_reads_expression hopened hderives)

/-- An answer that leaves a chain. -/
theorem spans_of_reads {bound : Nat} {answer : Except Stuck (Parsed Pred bound)}
    (hread : Reads answer v mid) (hchain : Chain j mid rest) : Spans 5 j rest answer where
  reads _ := ⟨v, mid, hread⟩
  left w r hread' := by
    obtain ⟨-, rfl⟩ := hread.unique hread'
    exact .inl ⟨hchain, stops_five mid⟩

/-- An atom with a chain behind it: the reader of atoms leaves the chain. -/
theorem spans_atom (hpredicate : PredicateSpansBelow n) (hlt : ts.length < n + 1)
    (h : Derives Anywhere .atom ts v mid) (hchain : Chain j mid rest) :
    Spans 5 j rest (atom ts) := by
  cases h with
  | top h => exact spans_of_reads (reads_atom.mpr (.inl ⟨h, rfl⟩)) hchain
  | bottom h => exact spans_of_reads (reads_atom.mpr (.inr (.inl ⟨h, rfl⟩))) hchain
  | @parens _ opened last _ _ hopened hinner hclosed =>
      have hshorter := hopened.length_lt
      obtain ⟨w, hw⟩ := exists_reads_predicate hpredicate (by omega) hinner hclosed
      have hnone : ∀ w r, ¬ Reads (relation ts) w r := by
        intro w r hrelation
        obtain ⟨left, mid, hleft, -⟩ := reads_relation.mp hrelation
        exact not_reads_expression hopened hinner hleft
      exact spans_of_reads
        (reads_atom.mpr (.inr (.inr (.inr ⟨hnone, opened, last, hopened, hw, hclosed⟩)))) hchain
  | @relation _ last more _ op left right hleft hsign hright =>
      obtain ⟨hexpr, hfront⟩ := front?_ne_of_relation hleft hsign
      by_cases hstop : frontStrength mid < 5
      · have hrelation : Reads (relation ts) (.relation op left right) mid :=
          reads_relation.mpr
            ⟨left, last, hexpr, op, more, right, hsign, hright.reads hstop, rfl⟩
        exact spans_of_reads
          (reads_atom.mpr (.inr (.inr (.inl ⟨hfront _ rfl, hfront _ rfl, hrelation⟩)))) hchain
      · -- arithmetic goes on behind the relation, so the chain ends there
        have hnone : ∀ op, front? mid ≠ some (.connective op) := by
          intro op hconnective
          rw [frontStrength, hconnective] at hstop
          cases op <;> exact hstop (by decide)
        obtain rfl := hchain.eq_of_stops fun op hop => absurd hop (hnone op)
        have hopen : ¬ Closed mid := by
          rintro (rfl | hclosing)
          · exact hstop (by decide)
          · rw [frontStrength, hclosing] at hstop
            exact hstop (by decide)
        refine ⟨fun hclosed => absurd hclosed hopen, fun w r hread => .inr ⟨hopen, ?_⟩⟩
        exact relation_length_le hleft hsign hright hread

/-- Neither a negation nor a quantifier starts an atom. -/
theorem front?_of_atom {admits : List Lexeme → List Lexeme → Prop}
    (h : Derives admits .atom ts v rest) :
    front? ts ≠ some .not ∧ ∀ q, front? ts ≠ some (.quantifier q) := by
  cases h with
  | top h => simp [h.front?]
  | bottom h => simp [h.front?]
  | parens hopened _ _ => simp [hopened.front?]
  | relation hleft hsign _ =>
      obtain ⟨-, hfront⟩ := front?_ne_of_relation hleft hsign
      exact ⟨hfront _ rfl, fun q => hfront _ rfl⟩

/-- Negations and quantifiers take a row, if predicates of fewer tokens are
    read. -/
theorem spans_unary (hpredicate : PredicateSpansBelow n) : SpansBelow (n + 1) 5 unary := by
  rintro ts rest j hlt ⟨q, mid, hoperand, hchain⟩
  -- on how the operand is built up; the chain behind it belongs to its last part
  induction hoperand generalizing j with
  | @atom ts mid v hatom =>
      obtain ⟨hnot, hquantifier⟩ := front?_of_atom hatom
      refine (spans_atom hpredicate hlt hatom hchain).map (Nat.le_refl 5) id ?_
      intro v r
      rw [reads_unary]
      constructor
      · rintro (⟨more, inner, hsign, -⟩ | ⟨q, more, decls, mid, hq, -⟩ | ⟨-, -, hread⟩)
        · exact absurd hsign.front? hnot
        · exact absurd hq.front? (hquantifier q)
        · exact ⟨v, hread, rfl⟩
      · rintro ⟨inner, hread, rfl⟩
        exact .inr (.inr ⟨hnot, hquantifier, hread⟩)
  | @not ts more mid q hsign _ ih =>
      have hshorter := hsign.length_lt
      refine (ih (by omega) hchain).map (Nat.le_refl 5) Pred.not ?_
      intro v r
      rw [reads_unary]
      constructor
      · rintro (⟨more', inner, hsign', hread, rfl⟩ | ⟨q, more', decls, mid, hq, -⟩ | ⟨hnot, -⟩)
        · obtain rfl := hsign.unique hsign'
          exact ⟨inner, hread, rfl⟩
        · cases hsign.front?.symm.trans hq.front?
        · exact absurd hsign.front? hnot
      · rintro ⟨inner, hread, rfl⟩
        exact .inl ⟨more, inner, hsign, hread, rfl⟩
  -- a quantifier takes the chain behind it into its body, one binder deeper
  | @quantified ts more dot start mid kind decls q hquantifier hdecls hdot hstart _ =>
      have hread := hdecls.read hdot.front?
      have hshorter := hquantifier.length_lt
      have hshorter' := hread.length_lt
      have hshorter'' := hdot.length_lt
      have hrow : Row (j + 1) start rest := by
        refine ⟨q, mid, hstart, ?_⟩
        rw [Nat.add_right_comm]
        exact hchain
      refine (hpredicate (by omega) hrow).map (by decide) (Pred.quantified kind decls) ?_
      intro v r
      rw [reads_unary]
      constructor
      · rintro (⟨more', inner, hsign, -⟩ |
          ⟨kind', more', decls', dot', hq, hdecls', start', body, hdot', hbody, rfl⟩ | ⟨-, hnot, -⟩)
        · cases hquantifier.front?.symm.trans hsign.front?
        · cases hquantifier.front?.symm.trans hq.front?
          obtain rfl := hquantifier.unique hq
          obtain ⟨rfl, rfl⟩ := hread.unique hdecls'
          obtain rfl := hdot.unique hdot'
          exact ⟨body, hbody, rfl⟩
        · exact absurd hquantifier.front? (hnot kind)
      · rintro ⟨body, hbody, rfl⟩
        exact .inr (.inl
          ⟨kind, more, decls, dot, hquantifier, hread, start, body, hdot, hbody, rfl⟩)

/-! ## Connectives -/

/-- A token in front may be taken. -/
theorem exists_leads {t : Token} (hfront : front? ts = some t) : ∃ more, Leads [t] ts more := by
  cases ts with
  | nil => cases hfront
  | cons l ls => exact ⟨ls, leads_cons_cons.mpr ⟨Option.some.inj hfront, rfl⟩⟩

/-- Another token in front has another strength. -/
theorem frontStrength_ne (hfront : front? ts ≠ some (.connective op)) :
    frontStrength ts ≠ op.precedence := by
  cases ts with
  | nil => cases op <;> decide
  | cons l ls => exact fun h => hfront (congrArg some (Token.eq_connective op h))

section Left

variable {operand whole : (ts : List Lexeme) → Reading Pred ts}
  {following : Pred → (ts : List Lexeme) → Except Stuck (Parsed Pred (ts.length + 1))}

/-- What a loop reads that joins operands by `op`. -/
def Loops (op : Connective) (operand : (ts : List Lexeme) → Reading Pred ts)
    (following : Pred → (ts : List Lexeme) → Except Stuck (Parsed Pred (ts.length + 1))) : Prop :=
  ∀ ⦃left v : Pred⦄ ⦃ts rest : List Lexeme⦄, Reads (following left ts) v rest ↔
    (frontStrength ts ≠ op.precedence ∧ left = v ∧ ts = rest) ∨
    ∃ more right mid, Leads [.connective op] ts more ∧ Reads (operand more) right mid ∧
      Reads (following (.binary op left right) mid) v rest

/-- The loop of a connective that groups to the left. -/
theorem spans_following {ts rest : List Lexeme} {j : Nat} (hop : op ≠ .iff)
    (hloop : Loops op operand following)
    (hoperand : SpansBelow n (op.precedence + 1) operand) (left : Pred) (hlt : ts.length < n)
    (hchain : Chain j ts rest) (hstops : Stops (op.precedence + 1) ts) :
    Spans op.precedence j rest (following left ts) := by
  -- the loop takes another operand if the connective is in front, and stops otherwise
  by_cases hfront : front? ts = some (.connective op)
  · obtain ⟨more, hsign⟩ := exists_leads hfront
    have hshorter := hsign.length_lt
    -- the operand behind the sign is missing, and the input cannot be closed
    rcases hchain.of_join hop hsign with rfl | hrow
    · have hopen := not_closed_of_connective hsign
      refine ⟨fun hclosed => absurd hclosed hopen, fun v r hread => .inr ⟨hopen, ?_⟩⟩
      exact Nat.le_of_lt_succ hread.length_lt
    · have hspans := hoperand (by omega) hrow
      refine ⟨fun hclosed => ?_, fun v r hread => ?_⟩
      · obtain ⟨right, mid, hright, hmid, hmidStops⟩ := hspans.exists_chain hclosed
        have hshorter' := hright.length_lt
        obtain ⟨v, r, hread⟩ := (spans_following hop hloop hoperand (.binary op left right)
          (by omega) hmid hmidStops).reads hclosed
        exact ⟨v, r, hloop.mpr (.inr ⟨more, right, mid, hsign, hright, hread⟩)⟩
      · rcases hloop.mp hread with ⟨hstop, -⟩ | ⟨more', right, mid, hsign', hright, hmore⟩
        · exact absurd hsign.frontStrength hstop
        · obtain rfl := hsign.unique hsign'
          have hshorter' := hright.length_lt
          rcases hspans.left right mid hright with ⟨hmid, hmidStops⟩ | ⟨hopen, hle⟩
          · exact (spans_following hop hloop hoperand (.binary op left right) (by omega) hmid
              hmidStops).left v r hmore
          · have hr := hmore.length_lt
            exact .inr ⟨hopen, by omega⟩
  · have hne := frontStrength_ne hfront
    refine ⟨fun _ => ⟨left, ts, hloop.mpr (.inl ⟨hne, rfl, rfl⟩)⟩, fun v r hread => ?_⟩
    rcases hloop.mp hread with ⟨-, rfl, rfl⟩ | ⟨more, right, mid, hsign, -⟩
    · exact .inl ⟨hchain, hstops.lower hne⟩
    · exact absurd hsign.front? hfront
termination_by ts.length

/-- An operand and what follows. -/
theorem spans_left (hop : op ≠ .iff) (hloop : Loops op operand following)
    (hwhole : ∀ {ts rest : List Lexeme} {v : Pred}, Reads (whole ts) v rest ↔
      ∃ first mid, Reads (operand ts) first mid ∧ Reads (following first mid) v rest)
    (hoperand : SpansBelow n (op.precedence + 1) operand) : SpansBelow n op.precedence whole := by
  intro ts rest j hlt hrow
  have hspans := hoperand hlt hrow
  refine ⟨fun hclosed => ?_, fun v r hread => ?_⟩
  · obtain ⟨first, mid, hfirst, hmid, hstops⟩ := hspans.exists_chain hclosed
    have hshorter := hfirst.length_lt
    obtain ⟨v, r, hread⟩ :=
      (spans_following hop hloop hoperand first (by omega) hmid hstops).reads hclosed
    exact ⟨v, r, hwhole.mpr ⟨first, mid, hfirst, hread⟩⟩
  · obtain ⟨first, mid, hfirst, hmore⟩ := hwhole.mp hread
    have hshorter := hfirst.length_lt
    rcases hspans.left first mid hfirst with ⟨hmid, hstops⟩ | ⟨hopen, hle⟩
    · exact (spans_following hop hloop hoperand first (by omega) hmid hstops).left v r hmore
    · have hr := hmore.length_lt
      exact .inr ⟨hopen, by omega⟩

end Left

/-- Conjunctions take a row as far as operands do. -/
theorem spans_conjunction (h : SpansBelow n 5 unary) : SpansBelow n 4 conjunction := by
  have hop : Connective.and ≠ .iff := by decide
  have hloop : Loops .and unary moreConjuncts := fun _ _ _ _ => reads_moreConjuncts
  exact spans_left hop hloop reads_conjunction h

/-- Disjunctions take a row as far as conjunctions do. -/
theorem spans_disjunction (h : SpansBelow n 4 conjunction) : SpansBelow n 3 disjunction := by
  have hop : Connective.or ≠ .iff := by decide
  have hloop : Loops .or conjunction moreDisjuncts := fun _ _ _ _ => reads_moreDisjuncts
  exact spans_left hop hloop reads_disjunction h

/-- Implications group to the right. -/
theorem spans_implication {ts rest : List Lexeme} {j : Nat} (h : SpansBelow n 3 disjunction)
    (hlt : ts.length < n) (hrow : Row j ts rest) : Spans 2 j rest (implication ts) := by
  have hop : Connective.imp ≠ .iff := by decide
  have hspans := h hlt hrow
  refine ⟨fun hclosed => ?_, fun v r hread => ?_⟩
  -- implication is right associative: behind the sign it reads itself
  · obtain ⟨left, mid, hleft, hmid, hstops⟩ := hspans.exists_chain hclosed
    have hshorter := hleft.length_lt
    by_cases hfront : front? mid = some (.connective .imp)
    · obtain ⟨more, hsign⟩ := exists_leads hfront
      have hshorter' := hsign.length_lt
      rcases hmid.of_join hop hsign with rfl | hmore
      · exact absurd hclosed (not_closed_of_connective hsign)
      · obtain ⟨right, r, hright⟩ := (spans_implication h (by omega) hmore).reads hclosed
        exact ⟨_, r, reads_implication.mpr
          ⟨left, mid, hleft, .inr ⟨more, right, hsign, hright, rfl⟩⟩⟩
    · exact ⟨left, mid, reads_implication.mpr
        ⟨left, mid, hleft, .inl ⟨frontStrength_ne hfront, rfl, rfl⟩⟩⟩
  -- the other direction, along the same two cases
  · obtain ⟨left, mid, hleft, hrest⟩ := reads_implication.mp hread
    have hshorter := hleft.length_lt
    rcases hspans.left left mid hleft with ⟨hmid, hstops⟩ | ⟨hopen, hle⟩
    · rcases hrest with ⟨hfront, rfl, rfl⟩ | ⟨more, right, hsign, hright, rfl⟩
      · exact .inl ⟨hmid, @Stops.lower mid .imp hstops hfront⟩
      · have hshorter' := hsign.length_lt
        rcases hmid.of_join hop hsign with rfl | hmore
        · have hr := hright.length_lt
          exact .inr ⟨not_closed_of_connective hsign, by omega⟩
        · exact (spans_implication h (by omega) hmore).left right r hright
    · refine .inr ⟨hopen, ?_⟩
      rcases hrest with ⟨-, rfl, rfl⟩ | ⟨more, right, hsign, hright, rfl⟩
      · exact hle
      · have hshorter' := hsign.length_lt
        have hr := hright.length_lt
        omega
termination_by ts.length

/-- A predicate takes one `⇔` if there is one, and then stops. -/
theorem spans_predicate (h : SpansBelow n 2 implication) : PredicateSpansBelow n := by
  intro ts rest j hlt hrow
  have hspans := h hlt hrow
  -- where no `⇔` stands the row is at its end
  have hend : ∀ {mid : List Lexeme}, Chain (j + 1) mid rest → Stops 2 mid →
      frontStrength mid ≠ 1 → mid = rest := by
    intro mid hmid hstops hfront
    exact hmid.eq_of_stops (@Stops.lower mid .iff hstops hfront)
  refine ⟨fun hclosed => ?_, fun v r hread => ?_⟩
  · obtain ⟨left, mid, hleft, hmid, hstops⟩ := hspans.exists_chain hclosed
    have hshorter := hleft.length_lt
    by_cases hfront : front? mid = some (.connective .iff)
    · obtain ⟨more, hsign⟩ := exists_leads hfront
      have hshorter' := hsign.length_lt
      rcases hmid.of_iff hsign with rfl | hmore
      · exact absurd hclosed (not_closed_of_connective hsign)
      · obtain ⟨right, r, hright⟩ := (h (by omega) hmore).reads hclosed
        exact ⟨_, r, reads_predicate.mpr
          ⟨left, mid, hleft, .inr ⟨more, right, hsign, hright, rfl⟩⟩⟩
    · exact ⟨left, mid, reads_predicate.mpr
        ⟨left, mid, hleft, .inl ⟨frontStrength_ne hfront, rfl, rfl⟩⟩⟩
  · obtain ⟨left, mid, hleft, hrest⟩ := reads_predicate.mp hread
    have hshorter := hleft.length_lt
    rcases hspans.left left mid hleft with ⟨hmid, hstops⟩ | ⟨hopen, hle⟩
    · rcases hrest with ⟨hfront, rfl, rfl⟩ | ⟨more, right, hsign, hright, rfl⟩
      · obtain rfl := hend hmid hstops hfront
        exact .inl ⟨.nil j mid, hstops⟩
      · have hshorter' := hsign.length_lt
        rcases hmid.of_iff hsign with rfl | hmore
        · have hr := hright.length_lt
          exact .inr ⟨not_closed_of_connective hsign, by omega⟩
        · exact (h (by omega) hmore).left right r hright
    · refine .inr ⟨hopen, ?_⟩
      rcases hrest with ⟨-, rfl, rfl⟩ | ⟨more, right, hsign, hright, rfl⟩
      · exact hle
      · have hshorter' := hsign.length_lt
        have hr := hright.length_lt
        omega

/-- The round: bodies and predicates in parentheses have fewer tokens. -/
theorem predicateSpansBelow (n : Nat) : PredicateSpansBelow n := by
  induction n with
  | zero =>
      intro ts rest j hlt
      exact absurd hlt (Nat.not_lt_zero _)
  | succ n ih =>
      have hdisjunction := spans_disjunction (spans_conjunction (spans_unary ih))
      exact spans_predicate fun _ _ _ => spans_implication hdisjunction

/-- The reader of predicates takes the whole of a phrase that nothing follows.
    -/
theorem Derives.spans (h : Derives Anywhere .predicate ts v rest) :
    Spans 2 0 rest (predicate ts) :=
  predicateSpansBelow (ts.length + 1) (Nat.lt_succ_self _) h.row

/-! ## The longest body -/

/-- No predicate that starts there reaches further. -/
def Longest (start rest : List Lexeme) : Prop :=
  ∀ v rest', Derives Anywhere .predicate start v rest' → rest.length ≤ rest'.length

/-- What is read as a predicate is a longest phrase. -/
theorem longest_of_reads (h : Reads (predicate ts) v rest) : Longest ts rest := by
  intro w rest' hderives
  rcases hderives.spans.left v rest h with ⟨hchain, hstops⟩ | ⟨-, hle⟩
  · exact Nat.le_of_eq (congrArg List.length (hchain.eq_of_zero hstops))
  · exact hle

/-- The reader of predicates reads a list of tokens to its end exactly if the
    list is derivable, and then reads it as a derivation does in which every
    body of a quantifier is the longest one. -/
theorem predicate_reads_grammar (ts : List Lexeme) :
    ((∃ parsed, predicate ts = .ok parsed ∧ parsed.rest = []) ↔
      ∃ v, Derives Anywhere .predicate ts v []) ∧
    ∀ parsed, predicate ts = .ok parsed → parsed.rest = [] →
      Derives Longest .predicate ts parsed.value [] := by
  have hsound : ∀ parsed, predicate ts = .ok parsed → parsed.rest = [] →
      Derives Longest .predicate ts parsed.value [] := by
    intro parsed hparsed hrest
    have hread : Reads (predicate ts) parsed.value [] := by
      rw [hparsed, reads_ok]
      exact ⟨rfl, hrest⟩
    exact derives_of_predicate longest_of_reads hread
  refine ⟨⟨?_, ?_⟩, hsound⟩
  · rintro ⟨parsed, hparsed, hrest⟩
    exact ⟨parsed.value, (hsound parsed hparsed hrest).mono fun _ _ _ => trivial⟩
  · rintro ⟨v, hderives⟩
    obtain ⟨w, r, ⟨hshorter, hread⟩, hchain, hstops⟩ := hderives.spans.exists_chain (.inl rfl)
    exact ⟨_, hread, hchain.eq_of_zero hstops⟩

/-- The tokens of `∀x:ℤ·(x)=1 ⇔ (x=2) ⇔ ⊤`. -/
def twoEquivalences : List Lexeme :=
  [.quantifier .universal, .ident "x", .colon, .intType, .dot, .opening, .ident "x", .closing,
    .relation .eq, .int "1", .connective .iff, .opening, .ident "x", .relation .eq, .int "2",
    .closing, .connective .iff, .top].map (⟨0, ·⟩)

/-- The body takes the first `⇔` and leaves the second one, and of the two
    parentheses the first starts a relation. -/
theorem twoEquivalences_reads_grammar :
    ∃ parsed, predicate twoEquivalences = .ok parsed ∧ parsed.rest = [] ∧
      parsed.value = .binary .iff (.quantified .universal [⟨"x", .integer⟩] (.binary .iff
        (.relation .eq (.ident "x") (.integer 1)) (.relation .eq (.ident "x") (.integer 2)))) .top ∧
      Derives Longest .predicate twoEquivalences parsed.value [] := by
  have heval : (predicate twoEquivalences).map (fun p => (p.value, p.rest)) =
      .ok (.binary .iff (.quantified .universal [⟨"x", .integer⟩] (.binary .iff
        (.relation .eq (.ident "x") (.integer 1)) (.relation .eq (.ident "x") (.integer 2)))) .top,
        []) := by
    with_unfolding_all rfl
  cases hparsed : predicate twoEquivalences with
  | error e =>
      rw [hparsed] at heval
      cases heval
  | ok parsed =>
      rw [hparsed] at heval
      obtain ⟨hvalue, hrest⟩ := Prod.mk.inj (Except.ok.inj heval)
      exact ⟨parsed, rfl, hrest, hvalue, (predicate_reads_grammar _).2 parsed hparsed hrest⟩

end Grammar

end SequentProver
