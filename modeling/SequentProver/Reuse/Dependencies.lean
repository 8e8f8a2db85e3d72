import SequentProver.Rule.Basic

/-! # Dependencies

    What a proof consults from the sequent it starts at: a goal, some
    hypotheses, the typed names they mention, the names it introduces and
    the reasoners it ran.  Dependencies are collected from the leaves to
    the root: an antecedent gives up what it added itself, and a rule adds
    what it consulted. -/

namespace SequentProver

/-- What a proof consulted: the goal if it mattered, hypotheses, names, the
    names that it introduced itself, and reasoners. -/
structure Dependencies where
  goal : Option Pred := none
  hyps : SortedSet Pred := ∅
  idents : SortedSet TypedName := ∅
  introduced : SortedSet String := ∅
  reasoners : SortedSet String := ∅
  deriving DecidableEq, Inhabited

namespace Dependencies

/-! ## Collecting -/

/-- Depend on a goal and on the names it mentions. -/
def setGoal (d : Dependencies) (goal : Pred) (env : TypeEnv) : Dependencies :=
  { d with goal := some goal, idents := SortedSet.union d.idents (env.freeIdents goal) }

/-- Depend on no goal. -/
def clearGoal (d : Dependencies) : Dependencies := { d with goal := none }

/-- An open node depends on its goal. -/
def openLeaf (s : Sequent) : Dependencies := ({} : Dependencies).setGoal s.goal s.env

/-- Depend on a hypothesis and on the names it mentions. -/
def useHyp (d : Dependencies) (env : TypeEnv) (hyp : Pred) : Dependencies :=
  { d with
    hyps := d.hyps.insert hyp
    idents := SortedSet.union d.idents (env.freeIdents hyp) }

/-- Depend on several hypotheses. -/
def useHyps (d : Dependencies) (hyps : List Pred) (env : TypeEnv) : Dependencies :=
  hyps.foldl (fun acc h => acc.useHyp env h) d

/-- Depend no longer on the given hypotheses. -/
def dropHyps (d : Dependencies) (hyps : List Pred) : Dependencies :=
  { d with hyps := d.hyps.filter fun h => !decide (h ∈ hyps) }

/-- Depend on a reasoner. -/
def useReasoner (d : Dependencies) (id : String) : Dependencies :=
  { d with reasoners := d.reasoners.insert id }

/-- Names that are no longer consulted but introduced. -/
def introduce (d : Dependencies) (idents : List TypedName) : Dependencies :=
  { d with
    idents := d.idents.filter fun used => !idents.any fun n => n.name = used.name
    introduced := d.introduced.insertAll (idents.map TypedName.name) }

/-- Whether one of the hypotheses or names is consulted. -/
def consults (d : Dependencies) (hyps : SortedSet Pred) (idents : List TypedName) : Bool :=
  SortedSet.meets d.hyps hyps ||
    idents.any fun n => d.idents.toList.any fun used => used.name = n.name

/-- Account for an inference.  When nothing of its outcome is consulted it
    contributes nothing; otherwise the sources take the place of what was
    inferred, and the added names become introduced ones. -/
def foldInference (d : Dependencies) (sources : SortedSet Pred) (idents : List TypedName)
    (inferred : SortedSet Pred) (env : TypeEnv) : Dependencies :=
  if d.consults inferred idents then
    ((d.dropHyps inferred.toList).useHyps sources.toList env).introduce idents
  else d

/-- Everything of both but the goal, which stays that of the first. -/
def merge (d e : Dependencies) : Dependencies :=
  { d with
    hyps := SortedSet.union d.hyps e.hyps
    idents := SortedSet.union d.idents e.idents
    introduced := SortedSet.union d.introduced e.introduced
    reasoners := SortedSet.union d.reasoners e.reasoners }

end Dependencies

/-! ## Folding through a rule -/

namespace Action

/-- Account for an action that was not skipped.  `env` is the environment
    of the sequent it produced. -/
def release (a : Action) (env : TypeEnv) (d : Dependencies) : Dependencies :=
  match a with
  | .mark _ _ => d
  | .infer sources idents inferred => d.foldInference sources idents inferred env
  | .replace sources replacement _ => d.foldInference sources [] replacement env

/-- Account for actions from the last to the first; `flags` tells which
    were skipped. -/
def releaseAll (env : TypeEnv) : List Action → List Bool → Dependencies → Dependencies
  | [], _, d => d
  | a :: rest, flags, d =>
    let later := releaseAll env rest flags.tail d
    if flags.headD false then later else a.release env later

end Action

namespace Antecedent

/-- Give up what the antecedent added, from the dependencies of its child:
    its actions, its goal, its hypotheses and its names. -/
def release (a : Antecedent) (childEnv : TypeEnv) (skipped : List Bool) (d : Dependencies) :
    Dependencies :=
  let acted := Action.releaseAll childEnv a.actions skipped d
  let aimed := if a.goal.isSome && acted.goal = a.goal then acted.clearGoal else acted
  (aimed.dropHyps a.hyps.toList).introduce a.idents

end Antecedent

namespace Rule

/-- What the children still depend on, each after its antecedent gave up
    what it added. -/
def releaseChildren : List Antecedent → List (List Bool) → List (Dependencies × TypeEnv) →
    List Dependencies
  | a :: antecedents, rows, (d, env) :: children =>
    a.release env (rows.headD []) d :: releaseChildren antecedents rows.tail children
  | _, _, _ => []

/-- The dependencies of a node from those of its children.  The goal is
    that of the rule, or else the first one a child still depends on. -/
def foldDependencies (r : Rule) (children : List (Dependencies × TypeEnv)) (env : TypeEnv)
    (skipped : SkippedActions) : Dependencies :=
  let released := releaseChildren r.antecedents skipped.rows children
  let merged := released.foldl Dependencies.merge {}
  let goal := r.goal <|> released.findSome? Dependencies.goal
  let aimed := match goal with
    | some p => merged.setGoal p env
    | none => merged
  (aimed.useHyps r.needed.toList env).useReasoner r.reasoner

end Rule

/-! ## Certificates -/

namespace Dependencies

/-- Whether a goal or a hypothesis of the sequent is consulted at all. -/
def hasDeps (d : Dependencies) : Bool := d.goal.isSome || !d.hyps.isEmpty

/-- The fields a digest is made of. -/
def contentFields (d : Dependencies) : List ContentField :=
  Content.optional "goal" (d.goal.map Pred.text) ++
    Content.fields "hyp" (d.hyps.toList.map Pred.text) ++
    Content.fields "ident" (d.idents.toList.map TypedName.text) ++
    Content.fields "introduced" d.introduced.toList ++
    Content.fields "reasoner" d.reasoners.toList

/-- The digest of the content. -/
def digest (d : Dependencies) : String := Content.digest d.contentFields

/-- Whether a proof with these dependencies can be replayed on `s`: the
    goal fits, the hypotheses are there, the names are bound as they were,
    and no introduced name is bound. -/
def reusableOn (d : Dependencies) (s : Sequent) : Bool :=
  (d.goal.isNone || d.goal = some s.goal) && s.hasAll d.hyps.toList &&
    d.idents.toList.all s.env.bindsAs && !d.introduced.toList.any s.env.binds

end Dependencies

end SequentProver
