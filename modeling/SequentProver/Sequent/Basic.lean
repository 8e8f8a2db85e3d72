import SequentProver.Digest.Content
import SequentProver.Formula.Typing

/-! # Sequents

    A sequent asks for a goal under hypotheses, over typed names.  Each
    hypothesis carries where it comes from and how it stands on the user's
    desk: plain, selected or hidden.  Sequents are values; every change
    makes a new one. -/

namespace SequentProver

/-! ## Hypotheses -/

/-- Given hypotheses come with the sequent, derived ones arise in proving. -/
inductive Origin where
  | given
  | derived
  deriving DecidableEq, Inhabited

/-- How a hypothesis stands. -/
inductive Standing where
  | plain
  | selected
  | hidden
  deriving DecidableEq, Inhabited

namespace Standing

/-- The name of a standing in content digests. -/
def tag : Standing → String
  | .plain => "visible"
  | .selected => "selected"
  | .hidden => "hidden"

end Standing

/-- A predicate that is supposed, where it comes from and how it stands. -/
structure Hypothesis where
  pred : Pred
  origin : Origin
  standing : Standing
  deriving DecidableEq, Inhabited

/-- A change of standing. -/
inductive Mark where
  | select
  | deselect
  | hide
  | show
  deriving DecidableEq, Inhabited

namespace Mark

/-- What a mark does to a hypothesis it mentions. -/
def apply : Mark → Standing → Standing
  | .select, _ => .selected
  | .hide, _ => .hidden
  | .deselect, .selected => .plain
  | .deselect, s => s
  | .show, .hidden => .plain
  | .show, s => s

end Mark

/-! ## Sequents -/

/-- Hypotheses are kept in the order of their predicates. -/
structure Sequent where
  env : TypeEnv
  hyps : SortedBy Hypothesis.pred
  goal : Pred
  deriving DecidableEq, Inhabited

namespace Sequent

/-- The entry of a predicate among the hypotheses. -/
def hypothesis? (s : Sequent) (p : Pred) : Option Hypothesis := s.hyps.find? p

/-- Whether `p` is a hypothesis. -/
def has (s : Sequent) (p : Pred) : Bool := s.hyps.hasKey p

/-- Whether every predicate of the list is a hypothesis. -/
def hasAll (s : Sequent) (ps : List Pred) : Bool := ps.all s.has

/-- Whether `p` is a hypothesis of the given standing. -/
def stands (s : Sequent) (standing : Standing) (p : Pred) : Bool :=
  match s.hypothesis? p with
  | some h => h.standing = standing
  | none => false

/-- The hypotheses of an origin, in order. -/
def ofOrigin (s : Sequent) (origin : Origin) : List Pred :=
  (s.hyps.toList.filter fun h => h.origin = origin).map Hypothesis.pred

/-- The hypotheses of a standing, in order. -/
def ofStanding (s : Sequent) (standing : Standing) : List Pred :=
  (s.hyps.toList.filter fun h => h.standing = standing).map Hypothesis.pred

/-- All hypotheses: the given ones first, each kind in order. -/
def hypotheses (s : Sequent) : List Pred := s.ofOrigin .given ++ s.ofOrigin .derived

/-- The hypotheses that are not hidden, in the same arrangement. -/
def visible (s : Sequent) : List Pred :=
  s.hypotheses.filter fun p => !s.stands .hidden p

/-- The written form; hidden hypotheses are left out. -/
def text (s : Sequent) : String :=
  let hyps := Text.joined " ;; " (s.visible.map Pred.text)
  (if s.visible.isEmpty then "" else hyps ++ " ") ++ "⊢ " ++ s.goal.text

/-- Same environment, goal, hypotheses and standings; where a hypothesis
    comes from does not count. -/
def sameAs (s t : Sequent) : Bool :=
  s.goal = t.goal && s.env = t.env &&
    s.hyps.toList.map (fun h => (h.pred, h.standing)) =
      t.hyps.toList.map (fun h => (h.pred, h.standing))

/-- The fields a fingerprint is made of. -/
def contentFields (s : Sequent) : List ContentField :=
  Content.fields "env" (s.env.idents.map TypedName.text) ++
    s.hyps.toList.map (fun h => (h.standing.tag, h.pred.text)) ++
    [("goal", s.goal.text)]

/-- Digest of environment, hypotheses with their standings, and goal. -/
def fingerprint (s : Sequent) : String := Content.digest s.contentFields

end Sequent

/-! ## Building -/

/-- Why there is no such sequent. -/
inductive SequentError where
  | goal (goal : Pred) (cause : FormulaError)
  | hypothesis (hyp : Pred) (cause : FormulaError)
  | hiddenAndSelected (hyp : Pred)
  | notAHypothesis (hyp : Pred)
  deriving DecidableEq

namespace SequentError

/-- The name of the cause. -/
def kind : SequentError → String
  | .goal _ _ => "Goal"
  | .hypothesis _ _ => "Hypothesis"
  | .hiddenAndSelected _ => "HiddenAndSelected"
  | .notAHypothesis _ => "NotAHypothesis"

/-- What is said to the user. -/
def message : SequentError → String
  | .goal p cause => "goal " ++ p.text ++ " does not type-check: " ++ cause.message
  | .hypothesis hyp cause =>
    "hypothesis " ++ hyp.text ++ " does not type-check: " ++ cause.message
  | .hiddenAndSelected hyp => hyp.text ++ " is both hidden and selected"
  | .notAHypothesis hyp => hyp.text ++ " is hidden or selected but is not a hypothesis"

end SequentError

namespace Sequent

/-- Refuse the first predicate that does not type-check. -/
def checkHypotheses (env : TypeEnv) : List Pred → Except SequentError Unit
  | [] => .ok ()
  | p :: rest =>
    match env.checkClosed p with
    | .error e => .error (.hypothesis p e)
    | .ok _ => checkHypotheses env rest

/-- Build a sequent and check everything: the goal, the hypotheses, and
    that what is hidden or selected is a hypothesis and not both.  A
    hypothesis that is given and derived counts as given. -/
def build (env : TypeEnv) (given derived hidden selected : List Pred) (goal : Pred) :
    Except SequentError Sequent :=
  let given : SortedSet Pred := SortedBy.ofList given
  -- what is both given and derived counts as given
  let derived := SortedSet.diff (SortedBy.ofList derived) given
  let hidden : SortedSet Pred := SortedBy.ofList hidden
  let selected : SortedSet Pred := SortedBy.ofList selected
  -- the goal is checked first, then the hypotheses, then what is said about them
  match env.checkClosed goal with
  | .error e => .error (.goal goal e)
  | .ok _ =>
    match checkHypotheses env (given.toList ++ derived.toList) with
    | .error e => .error e
    | .ok _ =>
      match (hidden.toList ++ selected.toList).find? fun p => !(p ∈ given || p ∈ derived) with
      | some stray => .error (.notAHypothesis stray)
      | none =>
        match hidden.toList.find? fun p => p ∈ selected with
        | some both => .error (.hiddenAndSelected both)
        | none =>
          let standing := fun p =>
            if p ∈ hidden then Standing.hidden
            else if p ∈ selected then Standing.selected
            else Standing.plain
          .ok ⟨env, SortedBy.ofList
            (given.toList.map (fun p => ⟨p, .given, standing p⟩) ++
              derived.toList.map (fun p => ⟨p, .derived, standing p⟩)), goal⟩

/-- A sequent whose hypotheses are all given and all selected. -/
def ofHypotheses (env : TypeEnv) (hyps : List Pred) (goal : Pred) :
    Except SequentError Sequent :=
  build env hyps [] [] hyps goal

/-! ## Changes -/

/-- Mark the hypotheses among `ps`; other predicates are ignored. -/
def mark (s : Sequent) (m : Mark) (ps : List Pred) : Sequent :=
  { s with
    hyps := s.hyps.adjust
      (fun h => if h.pred ∈ ps then { h with standing := m.apply h.standing } else h)
      (fun h => by
        show (if h.pred ∈ ps then { h with standing := m.apply h.standing } else h).pred = h.pred
        by_cases hmem : h.pred ∈ ps
        · rw [if_pos hmem]
        · rw [if_neg hmem]) }

/-- Add the predicates that are not hypotheses yet, as derived ones of
    the given standing. -/
def derive (s : Sequent) (standing : Standing) (ps : List Pred) : Sequent :=
  { s with
    hyps := s.hyps.insertAll
      ((ps.filter fun p => !s.has p).map fun p => ⟨p, .derived, standing⟩) }

/-- Bind fresh names; no result on a clash. -/
def addIdents (s : Sequent) (idents : List TypedName) : Option Sequent :=
  match s.env.extend idents with
  | .ok env => some { s with env := env }
  | .error _ => none

/-- Replace the goal; no result when it does not type-check. -/
def replaceGoal (s : Sequent) (goal : Pred) : Option Sequent :=
  if goal = s.goal then some s
  else if s.env.accepts goal then some { s with goal := goal }
  else none

/-- Add hypotheses.  One that is there already is shown if it was hidden;
    no result when one does not type-check. -/
def addHyps (s : Sequent) (ps : List Pred) : Option Sequent :=
  if ps.all s.env.accepts then some ((s.mark .show ps).derive .plain ps) else none

/-- The standing of what is inferred from `sources`: selected when some
    source is, or when there are none; hidden when all sources are. -/
def inferredStanding (s : Sequent) (sources : List Pred) : Standing :=
  if sources.isEmpty || sources.any (s.stands .selected) then .selected
  else if sources.all (s.stands .hidden) then .hidden
  else .plain

/-- Bind `idents`, then add what of `inferred` is new; no result on a
    clash or when a new hypothesis does not type-check. -/
def forwardInfer (s : Sequent) (sources : List Pred) (idents : List TypedName)
    (inferred : List Pred) : Option Sequent :=
  match s.addIdents idents with
  | none => none
  | some extended =>
    let fresh := inferred.filter fun p => !extended.has p
    if fresh.all extended.env.accepts then
      some (extended.derive (s.inferredStanding sources) fresh)
    else none

end Sequent

end SequentProver
