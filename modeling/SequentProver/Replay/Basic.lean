import SequentProver.Forest.Query
import SequentProver.Forest.Step
import SequentProver.Replay.Config

/-! # Replaying skeletons

    `reuse` applies the recorded rules below a node wherever they still
    apply.  `rebuild` may also ask the recorded reasoners again.  Either is
    one batch on the node's tree and answers whether the node ends up
    closed. -/

namespace SequentProver.Forest

/-- The nodes right below a node. -/
def childIds (f : Forest) (node : NodeId) : List NodeId :=
  match f.node? node with
  | some proof => proof.children.map ProofTree.id
  | none => []

/-- Whether a node is closed. -/
def nodeClosed (f : Forest) (node : NodeId) : Bool :=
  match f.node? node with
  | some proof => proof.confidence.isClosed
  | none => false

/-- Put a recorded comment on a node; an empty one leaves the node as it
    is. -/
def restoreComment (f : Forest) (node : NodeId) (comment : String) :
    Except TreeError Unit × Forest :=
  if comment = "" then (.ok (), f) else f.setComment node comment

/-- Apply a recorded rule; that it does not apply is no error. -/
def tryRule (f : Forest) (node : NodeId) (rule : Rule) : Except TreeError Bool × Forest :=
  match f.applyRule node rule with
  | (.ok _, f) => (.ok true, f)
  | (.error (.ruleNotApplicable _ _), f) => (.ok false, f)
  | (.error e, f) => (.error e, f)

/-! ## Reuse -/

/-- Apply the recorded rule of one node if it has none; answers whether
    it was applied. -/
def reuseRule (f : Forest) (node : NodeId) (rule : Rule) : Except TreeError Bool × Forest :=
  match f.nodeOrError node with
  | .error e => (.error e, f)
  | .ok proof => if proof.isOpen then f.tryRule node rule else (.ok false, f)

mutual

/-- Replay a skeleton at a node, from the top down as far as the rules
    apply. -/
def reuseNode (f : Forest) (node : NodeId) : Skeleton → Except TreeError Unit × Forest
  | .mk comment rule children =>
    match f.restoreComment node comment with
    | (.error e, f) => (.error e, f)
    | (.ok _, f) =>
      match rule with
      | none => (.ok (), f)
      | some rule =>
        match f.reuseRule node rule with
        | (.error e, f) => (.error e, f)
        | (.ok false, f) => (.ok (), f)
        | (.ok true, f) => reuseAmong f (f.childIds node) children

/-- Replay skeletons at nodes, pairwise; what has no partner is left. -/
def reuseAmong (f : Forest) : List NodeId → List Skeleton → Except TreeError Unit × Forest
  | node :: nodes, s :: rest =>
    match reuseNode f node s with
    | (.error e, f) => (.error e, f)
    | (.ok _, f) => reuseAmong f nodes rest
  | _, _ => (.ok (), f)

end

/-- Replay a skeleton at a node, applying recorded rules only. -/
def reuse (f : Forest) (node : NodeId) (skeleton : Skeleton) : Except TreeError Bool × Forest :=
  match f.treeOf node with
  | .error e => (.error e, f)
  | .ok tree =>
    f.inBatch tree fun f =>
      match f.reuseNode node skeleton with
      | (.error e, f) => (.error e, f)
      | (.ok _, f) => (.ok (f.nodeClosed node), f)

/-! ## Rebuild -/

/-- A forest and the monitor that watches its replay. -/
structure Watched where
  forest : Forest
  monitor : Monitor

/-- Ask the recorded reasoner again, unless canceled; answers whether a
    rule was applied.  That the reasoner or its rule fails is no error. -/
def rerun (registry : Registry) (w : Watched) (node : NodeId) (rule : Rule) :
    Except TreeError Bool × Watched :=
  let (canceled, monitor) := w.monitor.poll
  if canceled then (.ok false, ⟨w.forest, monitor⟩)
  else
    match registry.find? rule.reasoner with
    | none => (.ok false, ⟨w.forest, monitor⟩)
    | some reasoner =>
      let stepped := w.forest.applyReasoner node reasoner rule.input monitor
      let after : Watched := ⟨stepped.forest, stepped.monitor⟩
      match stepped.outcome with
      | .ok _ => (.ok true, after)
      | .error (.reasoner _) => (.ok false, after)
      | .error (.tree (.ruleNotApplicable _ _)) => (.ok false, after)
      | .error (.tree e) => (.error e, after)

/-- Bring back the step of one node if it has none, first by its rule and
    then by its reasoner, as far as the configuration allows. -/
def rebuildStep (registry : Registry) (config : ReplayConfig) (w : Watched) (node : NodeId)
    (rule : Rule) : Except TreeError Bool × Watched :=
  match w.forest.nodeOrError node with
  | .error e => (.error e, w)
  | .ok proof =>
    if proof.isOpen then
      match (if config.reuseFirst then w.forest.tryRule node rule else (.ok false, w.forest)) with
      | (.error e, f) => (.error e, ⟨f, w.monitor⟩)
      | (.ok true, f) => (.ok true, ⟨f, w.monitor⟩)
      | (.ok false, f) =>
        if config.rerunReasoners then rerun registry ⟨f, w.monitor⟩ node rule
        else (.ok false, ⟨f, w.monitor⟩)
    else (.ok false, w)

mutual

/-- Replay a skeleton at a node, from the top down as far as steps can be
    brought back. -/
def rebuildNode (registry : Registry) (config : ReplayConfig) (w : Watched) (node : NodeId) :
    Skeleton → Except TreeError Unit × Watched
  | .mk comment rule children =>
    match (if config.keepComments then w.forest.restoreComment node comment
      else (.ok (), w.forest)) with
    | (.error e, f) => (.error e, ⟨f, w.monitor⟩)
    | (.ok _, f) =>
      match rule with
      | none => (.ok (), ⟨f, w.monitor⟩)
      | some rule =>
        match rebuildStep registry config ⟨f, w.monitor⟩ node rule with
        | (.error e, w) => (.error e, w)
        | (.ok false, w) => (.ok (), w)
        | (.ok true, w) => rebuildAmong registry config w (w.forest.childIds node) children

/-- Replay skeletons at nodes, pairwise; what has no partner is left. -/
def rebuildAmong (registry : Registry) (config : ReplayConfig) (w : Watched) :
    List NodeId → List Skeleton → Except TreeError Unit × Watched
  | node :: nodes, s :: rest =>
    match rebuildNode registry config w node s with
    | (.error e, w) => (.error e, w)
    | (.ok _, w) => rebuildAmong registry config w nodes rest
  | _, _ => (.ok (), w)

end

/-- Replay a skeleton at a node, asking reasoners again where recorded
    rules no longer apply. -/
def rebuild (f : Forest) (node : NodeId) (skeleton : Skeleton) (registry : Registry)
    (monitor : Monitor) (config : ReplayConfig) : Except TreeError Bool × Forest :=
  match f.treeOf node with
  | .error e => (.error e, f)
  | .ok tree =>
    f.inBatch tree fun f =>
      match rebuildNode registry config ⟨f, monitor⟩ node skeleton with
      | (.error e, w) => (.error e, w.forest)
      | (.ok _, w) => (.ok (w.forest.nodeClosed node), w.forest)

end SequentProver.Forest
