import SequentProver.Formula.Outline
import SequentProver.Rule.Action
import SequentProver.Rule.Confidence

/-! # Proof rules

    A rule says that a goal follows from hypotheses once each of its
    antecedents is proved.  It is not trusted beyond its structure: needed
    hypotheses and goal are checked against the sequent, and every
    child sequent is derived here.  Application is all or nothing. -/

namespace SequentProver

/-! ## Inputs -/

/-- What a reasoner was asked, beyond the sequent. -/
inductive Input where
  | empty
  | predicate (p : Pred)
  | predicates (ps : List Pred)
  | comment (text : String)
  deriving DecidableEq, Inhabited

namespace Input

/-- The form in which a message shows an input. -/
def outline : Input → String
  | .empty => "Empty"
  | .predicate p => outlineOf "Predicate" [p.outline]
  | .predicates ps => outlineOf "Predicates" [outlineList (ps.map Pred.outline)]
  | .comment text => outlineOf "Comment" [Text.quoted text]

end Input

/-! ## Antecedents -/

/-- One subgoal of a rule: what changes against the parent sequent. -/
structure Antecedent where
  goal : Option Pred := none
  hyps : SortedSet Pred := ∅
  idents : List TypedName := []
  actions : List Action := []
  deriving DecidableEq, Inhabited

/-- Perform actions from left to right, reporting which were skipped. -/
def Sequent.performAll (s : Sequent) : List Action → Sequent × List Bool
  | [] => (s, [])
  | a :: rest =>
    let performed := a.execute s
    let (final, flags) := performed.sequent.performAll rest
    (final, performed.skipped :: flags)

namespace Antecedent

/-- The child sequent and which actions were skipped.  Names are bound
    first, then the goal is replaced, hypotheses are added and selected,
    and the actions run.  No result on a clash or a type error. -/
def expand (a : Antecedent) (parent : Sequent) : Option (Sequent × List Bool) := do
  let bound ← parent.addIdents a.idents
  let aimed ← match a.goal with
    | some goal => bound.replaceGoal goal
    | none => some bound
  let extended ← aimed.addHyps a.hyps.toList
  return (extended.mark .select a.hyps.toList).performAll a.actions

/-- The child sequent. -/
def apply (a : Antecedent) (parent : Sequent) : Option Sequent := (a.expand parent).map Prod.fst

/-- The expansions of several antecedents; no result when one has none. -/
def expandAll (parent : Sequent) : List Antecedent → Option (List (Sequent × List Bool))
  | [] => some []
  | a :: rest => do
    let child ← a.expand parent
    let children ← expandAll parent rest
    return child :: children

end Antecedent

/-! ## Skipped actions -/

/-- Which actions were skipped, by antecedent and then by action.  What is
    not recorded was not skipped. -/
structure SkippedActions where
  rows : List (List Bool) := []
  deriving DecidableEq, Inhabited

namespace SkippedActions

/-- The flags of one antecedent. -/
def row (s : SkippedActions) (antecedent : Nat) : List Bool := s.rows.getD antecedent []

/-- Whether the action was skipped; actions that there are not were not
    skipped. -/
def isSkipped (s : SkippedActions) (antecedent action : Nat) : Bool :=
  (s.row antecedent).getD action false

/-- Whether any action was skipped. -/
def any (s : SkippedActions) : Bool := s.rows.any fun row => row.any id

end SkippedActions

/-! ## Rules -/

/-- A rule: what it asks of a sequent, and the antecedents that are left to
    prove. -/
structure Rule where
  reasoner : String
  input : Input := .empty
  display : String
  goal : Option Pred := none
  needed : SortedSet Pred := ∅
  confidence : Confidence
  antecedents : List Antecedent := []
  deriving DecidableEq, Inhabited

namespace Rule

/-- A rule without goal, needed hypotheses or antecedents.  A level that
    no rule may have is handed back as the error. -/
def make (reasoner display : String) (confidence : Confidence) : Except Confidence Rule :=
  if confidence.isValidForRule then
    .ok { reasoner := reasoner, display := display, confidence := confidence }
  else .error confidence

/-- The message about a level that no rule may have. -/
def invalidConfidence (c : Confidence) : String := "invalid rule confidence: " ++ c.text

/-- A rule without antecedents closes its node. -/
def isDischarging (r : Rule) : Bool := r.antecedents.isEmpty

/-- Whether the needed hypotheses are there and the goal, if the rule has
    one, is the goal of the sequent. -/
def fits (r : Rule) (s : Sequent) : Bool :=
  s.hasAll r.needed.toList && (r.goal.isNone || r.goal = some s.goal)

/-- The child sequents in the order of the antecedents, and which actions
    were skipped.  No result when the rule does not apply. -/
def expand (r : Rule) (s : Sequent) : Option (List Sequent × SkippedActions) :=
  if r.fits s then
    (Antecedent.expandAll s r.antecedents).map fun children =>
      (children.map Prod.fst, ⟨children.map Prod.snd⟩)
  else none

/-- The child sequents. -/
def apply (r : Rule) (s : Sequent) : Option (List Sequent) := (r.expand s).map Prod.fst

end Rule

end SequentProver
