import SequentProver.Sequent.Basic

/-! # Actions on hypotheses

    What an antecedent does to its sequent once goal and hypotheses are in
    place.  Marks change standings only.  A forward inference and a
    replacement add hypotheses drawn from others; when they add none they
    count as skipped, and a skipped action contributes nothing to a proof. -/

namespace SequentProver

/-- What is done to the hypotheses of a child. -/
inductive Action where
  /-- Change the standing of hypotheses. -/
  | mark (m : Mark) (hyps : SortedSet Pred)
  /-- Bind `idents`, then draw `inferred` from `sources`. -/
  | infer (sources : SortedSet Pred) (idents : List TypedName) (inferred : SortedSet Pred)
  /-- Put `replacement` in place of `sources`, hiding those of `toHide`. -/
  | replace (sources replacement toHide : SortedSet Pred)
  deriving DecidableEq

namespace Action

/-- The word for the kind of action. -/
def kind : Action → String
  | .mark .select _ => "select"
  | .mark .deselect _ => "deselect"
  | .mark .hide _ => "hide"
  | .mark .show _ => "show"
  | .infer _ _ _ => "forward_infer"
  | .replace _ _ _ => "rewrite"

/-- The hypotheses an action acts on. -/
def hyps : Action → SortedSet Pred
  | .mark _ hyps => hyps
  | .infer sources _ _ => sources
  | .replace sources _ _ => sources

/-- The hypotheses an action may add. -/
def added? : Action → Option (SortedSet Pred)
  | .mark _ _ => none
  | .infer _ _ inferred => some inferred
  | .replace _ replacement _ => some replacement

/-- The action as it is printed: its kind, what it takes and what it adds. -/
def text (a : Action) : String :=
  let list := fun (s : SortedSet Pred) => Text.joined ", " (s.toList.map Pred.text)
  let added := match a.added? with
    | none => ""
    | some s => " ↦ " ++ list s
  a.kind ++ "(" ++ list a.hyps ++ added ++ ")"

end Action

/-- A sequent after an action, and whether the action was skipped. -/
structure Performed where
  sequent : Sequent
  skipped : Bool

namespace Sequent

/-- A forward inference applies when its sources are there, its names are
    free and something inferred is new. -/
def tryInfer (s : Sequent) (sources : SortedSet Pred) (idents : List TypedName)
    (inferred : SortedSet Pred) : Option Sequent :=
  if s.hasAll sources.toList && !(idents.any fun n => s.env.binds n.name) &&
      !s.hasAll inferred.toList then
    s.forwardInfer sources.toList idents inferred.toList
  else none

/-- A replacement needs its sources.  What replaces them is added where it is
    missing and selected; then the sources to hide are hidden. -/
def performReplace (s : Sequent) (sources replacement toHide : SortedSet Pred) : Performed :=
  let finish := fun (t : Sequent) =>
    (t.mark .select replacement.toList).mark .hide (SortedSet.inter toHide sources).toList
  if !s.hasAll sources.toList then ⟨s, true⟩
  else if s.hasAll replacement.toList then ⟨finish s, true⟩
  else
    match s.forwardInfer sources.toList [] replacement.toList with
    | some t => ⟨finish t, false⟩
    | none => ⟨s, true⟩

end Sequent

namespace Action

/-- Perform an action.  An action that does not apply leaves the sequent
    as it is; marks are never skipped. -/
def execute (a : Action) (s : Sequent) : Performed :=
  match a with
  | .mark m hyps => ⟨s.mark m hyps.toList, false⟩
  | .infer sources idents inferred =>
    match s.tryInfer sources idents inferred with
    | some t => ⟨t, false⟩
    | none => ⟨s, true⟩
  | .replace sources replacement toHide => s.performReplace sources replacement toHide

/-- The sequent after an action. -/
def perform (a : Action) (s : Sequent) : Sequent := (a.execute s).sequent

end Action

end SequentProver
