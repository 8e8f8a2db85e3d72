import SequentProver.Reasoner.Basic

/-! # The builtin reasoners

    Four close a goal outright: it is a hypothesis, it is `⊤`, `⊥` is a
    hypothesis, or a human vouches for it.  Six take a connective apart, in
    the goal or in a hypothesis, or cut with a lemma. -/

namespace SequentProver

/-- The reasoners that are always there. -/
inductive Builtin where
  | hyp
  | trueGoal
  | falseHyp
  | review
  | impGoal
  | conjGoal
  | allGoal
  | cut
  | conjHyp
  | existsHyp
  deriving DecidableEq, Inhabited

namespace Builtin

/-- All of them, in the order of registration. -/
def all : List Builtin :=
  [.hyp, .trueGoal, .falseHyp, .review, .impGoal, .conjGoal, .allGoal, .cut, .conjHyp,
    .existsHyp]

/-- The name under which a reasoner is registered. -/
def id : Builtin → String
  | .hyp => "hyp"
  | .trueGoal => "true_goal"
  | .falseHyp => "false_hyp"
  | .review => "review"
  | .impGoal => "imp_i"
  | .conjGoal => "conj_i"
  | .allGoal => "all_i"
  | .cut => "lemma"
  | .conjHyp => "conj_e"
  | .existsHyp => "exists_e"

/-- Refuse with a message. -/
def unsuccessful {α : Type} (b : Builtin) (message : String) : Except ReasonerFailure α :=
  .error (.unsuccessful b.id message)

/-- A rule of full confidence. -/
def rule (b : Builtin) (display : String) : Rule :=
  { reasoner := b.id, display := display, confidence := .dischargedMax }

/-- The predicate a reasoner was given. -/
def predicateInput (b : Builtin) : Input → Except ReasonerFailure Pred
  | .predicate p => .ok p
  | other => .error (.malformedInput b.id ("expected a predicate, got " ++ other.outline))

/-- The predicate a reasoner was given, which has to be a hypothesis. -/
def hypothesisInput (b : Builtin) (s : Sequent) (input : Input) :
    Except ReasonerFailure Pred := do
  let hyp ← b.predicateInput input
  if s.has hyp then return hyp
  else b.unsuccessful (hyp.text ++ " is not a hypothesis")

/-- The declarations of a quantifier as names to bind; each has to be a
    name. -/
def boundIdents (b : Builtin) : List TypedName → Except ReasonerFailure (List TypedName)
  | [] => .ok []
  | d :: rest =>
    match TypedName.make d.name d.ty with
    | .error e => b.unsuccessful e.message
    | .ok n => (b.boundIdents rest).map (n :: ·)

/-! ## Closing -/

/-- The goal is a hypothesis. -/
def proposeHyp (s : Sequent) : Except ReasonerFailure Rule :=
  if s.has s.goal then
    .ok { rule .hyp "hyp" with goal := some s.goal, needed := SortedBy.ofList [s.goal] }
  else hyp.unsuccessful "goal not in hypotheses"

/-- The goal is `⊤`. -/
def proposeTrueGoal (s : Sequent) : Except ReasonerFailure Rule :=
  if s.goal = .top then .ok { rule .trueGoal "⊤ goal" with goal := some .top }
  else trueGoal.unsuccessful "goal is not ⊤"

/-- Some hypothesis is `⊥`. -/
def proposeFalseHyp (s : Sequent) : Except ReasonerFailure Rule :=
  if s.has .bottom then .ok { rule .falseHyp "⊥ hyp" with needed := SortedBy.ofList [.bottom] }
  else falseHyp.unsuccessful "no ⊥ hypothesis"

/-- A human's word for the goal, resting on the selected hypotheses. -/
def proposeReview (s : Sequent) (input : Input) : Except ReasonerFailure Rule := do
  let display ← match input with
    | .empty => .ok "review"
    | .comment text => .ok ("review: " ++ text)
    | other => .error (.malformedInput review.id ("expected a comment, got " ++ other.outline))
  return { rule .review display with
    goal := some s.goal
    needed := SortedBy.ofList (s.ofStanding .selected)
    confidence := .reviewedMax }

/-! ## Taking apart -/

/-- For a goal `P ⇒ Q`, assume `P` and prove `Q`. -/
def proposeImpGoal (s : Sequent) : Except ReasonerFailure Rule :=
  match s.goal.asImplication with
  | none => impGoal.unsuccessful "goal is not an implication"
  | some (left, right) =>
    .ok { rule .impGoal "⇒ goal" with
      goal := some s.goal
      antecedents := [{ goal := some right, hyps := SortedBy.ofList [left] }] }

/-- For a goal `P ∧ Q`, prove the two sides, the left one first. -/
def proposeConjGoal (s : Sequent) : Except ReasonerFailure Rule :=
  match s.goal.asConjunction with
  | none => conjGoal.unsuccessful "goal is not a conjunction"
  | some (left, right) =>
    .ok { rule .conjGoal "∧ goal" with
      goal := some s.goal
      antecedents := [{ goal := some left }, { goal := some right }] }

/-- For a goal `∀x·P`, bind `x` in the environment and prove `P`.  If `x`
    is bound already the rule is proposed all the same, and will not
    apply. -/
def proposeAllGoal (s : Sequent) : Except ReasonerFailure Rule :=
  match s.goal with
  | .quantified .universal decls body => do
    let idents ← allGoal.boundIdents decls
    return { rule .allGoal "∀ goal" with
      goal := some s.goal
      antecedents := [{ goal := some body, idents := idents }] }
  | _ => allGoal.unsuccessful "goal is not universal"

/-- Cut: the input is proved once and may be assumed from there on. -/
def proposeCut (s : Sequent) (input : Input) : Except ReasonerFailure Rule := do
  let assertion ← cut.predicateInput input
  match s.env.checkClosed assertion with
  | .error e => cut.unsuccessful e.message
  | .ok _ =>
    return { rule .cut ("lemma " ++ assertion.text) with
      antecedents := [{ goal := some assertion }, { hyps := SortedBy.ofList [assertion] }] }

/-- Hypothesis `P ∧ Q` gives way to `P` and `Q`. -/
def proposeConjHyp (s : Sequent) (input : Input) : Except ReasonerFailure Rule := do
  let hyp ← conjHyp.hypothesisInput s input
  match hyp.asConjunction with
  | none => conjHyp.unsuccessful (hyp.text ++ " is not a conjunction")
  | some (left, right) =>
    let gone : SortedSet Pred := SortedBy.ofList [hyp]
    return { rule .conjHyp "∧ hyp" with
      needed := gone
      antecedents := [{ actions := [.replace gone (SortedBy.ofList [left, right]) gone] }] }

/-- Hypothesis `∃x·P` gives way to `P` with `x` bound in the environment,
    where it must not be bound yet. -/
def proposeExistsHyp (s : Sequent) (input : Input) : Except ReasonerFailure Rule := do
  let hyp ← existsHyp.hypothesisInput s input
  match hyp with
  | .quantified .existential decls body =>
    match decls.find? fun d => s.env.binds d.name with
    | some taken => existsHyp.unsuccessful (taken.name ++ " is already free")
    | none =>
      let idents ← existsHyp.boundIdents decls
      let source : SortedSet Pred := SortedBy.ofList [hyp]
      return { rule .existsHyp "∃ hyp" with
        needed := source
        antecedents :=
          [{ actions := [.infer source idents (SortedBy.ofList [body]), .mark .hide source] }] }
  | _ => existsHyp.unsuccessful (hyp.text ++ " is not existential")

/-- The rule a builtin reasoner proposes. -/
def propose (b : Builtin) (s : Sequent) (input : Input) : Except ReasonerFailure Rule :=
  match b with
  | .hyp => proposeHyp s
  | .trueGoal => proposeTrueGoal s
  | .falseHyp => proposeFalseHyp s
  | .review => proposeReview s input
  | .impGoal => proposeImpGoal s
  | .conjGoal => proposeConjGoal s
  | .allGoal => proposeAllGoal s
  | .cut => proposeCut s input
  | .conjHyp => proposeConjHyp s input
  | .existsHyp => proposeExistsHyp s input

/-- The reasoner as one that can be registered; it does not look at the
    monitor. -/
def reasoner (b : Builtin) : Reasoner := Reasoner.unmonitored b.id b.propose

end Builtin

/-- The registry of the builtin reasoners. -/
def Registry.builtin : Registry :=
  (Builtin.all.map Builtin.reasoner).foldl Registry.insert Registry.empty

end SequentProver
