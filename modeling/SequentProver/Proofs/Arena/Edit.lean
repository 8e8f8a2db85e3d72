import SequentProver.Proofs.Arena.Basic
import SequentProver.Proofs.Reachable

/-! # Changing an arena

    The operations of a forest, on stored fields.  Subtrees are moved by
    rewriting the tree and parent fields of their nodes; a node's children,
    rule and skipped actions are written one after the other. -/

namespace SequentProver.Arena

open Forest (ruleFlags)

/-! ## Trees -/

/-- Enter a tree with an open node on the given sequent. -/
def createTree (sequent : Sequent) (origin : Option String) : Work TreeId := do
  let tree ← newTree
  let root ← Work.perform fun a => a.alloc (.ofSequent tree none sequent)
  enter { id := tree, origin := origin, root := root }
  return tree

/-- Remove a tree with all its nodes; answers whether there was one. -/
def removeTree (tree : TreeId) : Work Bool := do
  match ← Work.ask fun a => a.tree? tree with
  | none => return false
  | some t =>
    Work.update fun a => { a with trees := a.trees.filter fun t => t.id ≠ tree }
    let turns ← Work.ask fun a => a.nodes.length
    discard turns [t.root]
    return true

/-- Enter a copy of the nodes from a node down as a tree. -/
def copySubtree (node : NodeId) : Work TreeId := do
  let _ ← data node
  let tree ← newTree
  let turns ← Work.ask fun a => a.nodes.length
  let root ← copyNode tree turns node none
  enter { id := tree, root := root }
  return tree

/-! ## Nodes -/

/-- Store an open child for each of the sequents and the rule with them. -/
def attachRule (node : NodeId) (rule : Rule) (skipped : SkippedActions)
    (sequents : List Sequent) : Work Unit := do
  let tree := (← data node).tree
  let children ← Work.each
    (fun sequent => Work.perform fun a => a.alloc (.ofSequent tree (some node) sequent)) sequents
  write node fun d => { d with rule := some rule, skipped := skipped, children := children }
  record tree node ruleFlags
  refresh node

/-- Apply a rule to an open node. -/
def applyRule (node : NodeId) (rule : Rule) : Work Unit := do
  let d ← data node
  if d.rule.isSome then Work.orRefuse (.error (.nodeNotOpen node))
  else
    match rule.expand d.sequent with
    | none => Work.orRefuse (.error (.ruleNotApplicable node rule.display))
    | some (sequents, skipped) => inBatch d.tree (attachRule node rule skipped sequents)

/-- Make each node the root of the tree that goes with it. -/
def uprootEach : List NodeId → List TreeId → Work Unit
  | child :: children, tree :: trees => do
    reparent child none tree
    enter { id := tree, root := child }
    uprootEach children trees
  | _, _ => return ()

/-- Take the rule off a node and make its children the roots of new trees. -/
def uproot (node : NodeId) : Work (List TreeId) := do
  let d ← data node
  let trees ← newTrees d.children.length
  write node fun d => { d with rule := none, skipped := {}, children := [] }
  uprootEach d.children trees
  return trees

/-- The same, noted in the books and with the levels brought in step. -/
def detachChildren (node : NodeId) : Work (List TreeId) := do
  let d ← data node
  let trees ← uproot node
  record d.tree node ruleFlags
  refresh node
  return trees

/-- Take the rule off a node; on an open node nothing happens. -/
def pruneChildren (node : NodeId) : Work (List TreeId) := do
  let d ← data node
  if d.rule.isNone then return [] else inBatch d.tree (detachChildren node)

/-- Take the rule off a node and remove what was below it. -/
def pruneAndDiscard (node : NodeId) : Work Unit := do
  let trees ← pruneChildren node
  let _ ← Work.each removeTree trees
  return ()

/-- Put a comment on a node. -/
def setComment (node : NodeId) (comment : String) : Work Unit := do
  let d ← data node
  if d.comment = comment then return ()
  else
    inBatch d.tree do
      write node fun d => { d with comment := comment }
      record d.tree node .comment
      refresh node

/-- Move the rule and the children of one node to another; answers the trees
    that the two are in. -/
def handOver (source target : NodeId) : Work (TreeId × TreeId) := do
  let donor ← data source
  write source fun d => { d with rule := none, skipped := {}, children := [] }
  let taker ← data target
  let _ ← Work.each (fun child => reparent child (some target) taker.tree) donor.children
  write target fun d =>
    { d with rule := donor.rule, skipped := donor.skipped, children := donor.children }
  return (donor.tree, taker.tree)

/-- The same, noted in the books and with the levels brought in step. -/
def moveProof (source target : NodeId) : Work Unit := do
  let trees ← handOver source target
  record trees.1 source ruleFlags
  record trees.2 target ruleFlags
  refresh source
  refresh target

/-- Move the proof at the root of a tree to a node, if the node is open, in
    another tree and on the same sequent. -/
def graftRoot (source : TreeEntry) (node : NodeId) (target : NodeData) : Work Bool := do
  let donor ← data source.root
  if target.rule.isNone ∧ donor.rule.isSome ∧ target.tree ≠ source.id ∧
      target.sequent.sameAs donor.sequent = true then
    inBatch target.tree do
      inBatch source.id do
        moveProof source.root node
        return true
  else return false

/-- Move the proof at the root of `source` to a node, if it can be moved. -/
def graft (node : NodeId) (source : TreeId) : Work Bool := do
  let target ← data node
  match ← Work.ask fun a => a.tree? source with
  | none => Work.orRefuse (.error (.unknownTree source))
  | some t => graftRoot t node target

/-! ## Listeners -/

/-- Register a listener on a tree. -/
def addListener (tree : TreeId) : Work Nat := do
  match ← Work.ask fun a => a.tree? tree with
  | none => Work.orRefuse (.error (.unknownTree tree))
  | some t =>
    Work.update fun a => a.updateTree tree fun t =>
      { t with listeners := t.listeners ++ [t.nextListener], nextListener := t.nextListener + 1 }
    return t.nextListener

/-- Remove a listener; answers whether there was one. -/
def removeListener (tree : TreeId) (listener : Nat) : Work Bool := do
  match ← Work.ask fun a => a.tree? tree with
  | none => return false
  | some t =>
    Work.update fun a => a.updateTree tree fun t =>
      { t with listeners := t.listeners.filter fun l => l ≠ listener }
    return t.listeners.contains listener

/-! ## Steps and replays -/

/-- Take a step at an open node; the answer is what came of it, with the
    monitor. -/
def applyReasoner (node : NodeId) (reasoner : Reasoner) (input : Input) (monitor : Monitor) :
    Work (Except StepError Unit × Monitor) := do
  match ← Work.ask fun a => a.data? node with
  | none => return (.error (.tree (.unknownNode node)), monitor)
  | some d =>
    if d.rule.isNone then
      let (canceled, monitor) := monitor.poll
      if canceled then return (.error (.reasoner (.canceled reasoner.id)), monitor)
      else
        match reasoner.apply d.sequent input monitor with
        | (.error failure, monitor) => return (.error (.reasoner failure), monitor)
        | (.ok rule, monitor) =>
          let outcome ← (applyRule node { rule with input := input }).attempt
          return (outcome.mapError .tree, monitor)
    else return (.error (.tree (.nodeNotOpen node)), monitor)

/-- The nodes right below a node. -/
def childIds (a : Arena) (node : NodeId) : List NodeId :=
  ((a.data? node).map NodeData.children).getD []

/-- Whether a node is closed. -/
def nodeClosed (a : Arena) (node : NodeId) : Bool :=
  (a.data? node).any fun d => d.confidence.isClosed

/-- Put a recorded comment on a node; an empty one leaves the node as it
    is. -/
def restoreComment (node : NodeId) (comment : String) : Work Unit :=
  if comment = "" then return () else setComment node comment

/-- Apply a recorded rule; that it does not apply is no error. -/
def tryRule (node : NodeId) (rule : Rule) : Work Bool := do
  match ← (applyRule node rule).attempt with
  | .ok _ => return true
  | .error (.ruleNotApplicable _ _) => return false
  | .error e => Work.orRefuse (.error e)

/-- Apply the recorded rule of one node if it has none. -/
def reuseRule (node : NodeId) (rule : Rule) : Work Bool := do
  let d ← data node
  if d.rule.isNone then tryRule node rule else return false

mutual

/-- Replay a skeleton at a node, from the top down as far as the rules
    apply. -/
def reuseNode (node : NodeId) : Skeleton → Work Unit
  | .mk comment rule children => do
    restoreComment node comment
    match rule with
    | none => return ()
    | some rule =>
      if ← reuseRule node rule then
        reuseAmong (← Work.ask fun a => a.childIds node) children
      else return ()

/-- Replay skeletons at nodes, pairwise. -/
def reuseAmong : List NodeId → List Skeleton → Work Unit
  | node :: nodes, s :: rest => do
    reuseNode node s
    reuseAmong nodes rest
  | _, _ => return ()

end

/-- Replay a skeleton at a node, applying recorded rules only. -/
def reuse (node : NodeId) (skeleton : Skeleton) : Work Bool := do
  let d ← data node
  inBatch d.tree do
    reuseNode node skeleton
    Work.ask fun a => a.nodeClosed node

/-- Ask the recorded reasoner again, unless canceled; answers whether a
    rule was applied, with the monitor. -/
def rerun (registry : Registry) (monitor : Monitor) (node : NodeId) (rule : Rule) :
    Work (Except TreeError Bool × Monitor) := do
  let (canceled, monitor) := monitor.poll
  if canceled then return (.ok false, monitor)
  else
    match registry.find? rule.reasoner with
    | none => return (.ok false, monitor)
    | some reasoner =>
      let (outcome, monitor) ← applyReasoner node reasoner rule.input monitor
      match outcome with
      | .ok _ => return (.ok true, monitor)
      | .error (.reasoner _) => return (.ok false, monitor)
      | .error (.tree (.ruleNotApplicable _ _)) => return (.ok false, monitor)
      | .error (.tree e) => return (.error e, monitor)

/-- Bring back the step of one node if it has none, first by its rule and
    then by its reasoner, as far as the configuration allows. -/
def rebuildStep (registry : Registry) (config : ReplayConfig) (monitor : Monitor) (node : NodeId)
    (rule : Rule) : Work (Except TreeError Bool × Monitor) := do
  match ← Work.ask fun a => a.data? node with
  | none => return (.error (.unknownNode node), monitor)
  | some d =>
    if d.rule.isNone then
      let tried ← (if config.reuseFirst then tryRule node rule else return false).attempt
      match tried with
      | .error e => return (.error e, monitor)
      | .ok true => return (.ok true, monitor)
      | .ok false =>
        if config.rerunReasoners then rerun registry monitor node rule
        else return (.ok false, monitor)
    else return (.ok false, monitor)

mutual

/-- Replay a skeleton at a node, from the top down as far as steps can be
    brought back; the answer comes with the monitor, also when it is an
    error. -/
def rebuildNode (registry : Registry) (config : ReplayConfig) (monitor : Monitor)
    (node : NodeId) : Skeleton → Work (Except TreeError Unit × Monitor)
  | .mk comment rule children => do
    let restored ← (if config.keepComments then restoreComment node comment
      else return ()).attempt
    match restored with
    | .error e => return (.error e, monitor)
    | .ok _ =>
      match rule with
      | none => return (.ok (), monitor)
      | some rule =>
        let (applied, monitor) ← rebuildStep registry config monitor node rule
        match applied with
        | .error e => return (.error e, monitor)
        | .ok false => return (.ok (), monitor)
        | .ok true =>
          rebuildAmong registry config monitor (← Work.ask fun a => a.childIds node) children

/-- Replay skeletons at nodes, pairwise. -/
def rebuildAmong (registry : Registry) (config : ReplayConfig) (monitor : Monitor) :
    List NodeId → List Skeleton → Work (Except TreeError Unit × Monitor)
  | node :: nodes, s :: rest => do
    let (replayed, monitor) ← rebuildNode registry config monitor node s
    match replayed with
    | .error e => return (.error e, monitor)
    | .ok _ => rebuildAmong registry config monitor nodes rest
  | _, _ => return (.ok (), monitor)

end

/-- Replay a skeleton at a node, asking reasoners again where recorded
    rules no longer apply. -/
def rebuild (node : NodeId) (skeleton : Skeleton) (registry : Registry) (monitor : Monitor)
    (config : ReplayConfig) : Work Bool := do
  let d ← data node
  inBatch d.tree do
    let (replayed, _) ← rebuildNode registry config monitor node skeleton
    Work.orRefuse replayed
    Work.ask fun a => a.nodeClosed node

end SequentProver.Arena

namespace SequentProver

/-- The arena after an operation, if the operation ends. -/
def Op.onArena (a : Arena) : Op → Option Arena
  | .createTree sequent origin => (Arena.createTree sequent origin a).map Prod.snd
  | .removeTree tree => (Arena.removeTree tree a).map Prod.snd
  | .copySubtree node => (Arena.copySubtree node a).map Prod.snd
  | .applyRule node rule => (Arena.applyRule node rule a).map Prod.snd
  | .applyReasoner node reasoner input monitor =>
    (Arena.applyReasoner node reasoner input monitor a).map Prod.snd
  | .pruneChildren node => (Arena.pruneChildren node a).map Prod.snd
  | .pruneAndDiscard node => (Arena.pruneAndDiscard node a).map Prod.snd
  | .setComment node comment => (Arena.setComment node comment a).map Prod.snd
  | .graft node source => (Arena.graft node source a).map Prod.snd
  | .reuse node skeleton => (Arena.reuse node skeleton a).map Prod.snd
  | .rebuild node skeleton registry monitor config =>
    (Arena.rebuild node skeleton registry monitor config a).map Prod.snd
  | .addListener tree => (Arena.addListener tree a).map Prod.snd
  | .removeListener tree listener => (Arena.removeListener tree listener a).map Prod.snd
  | .beginBatch tree => (Arena.beginBatch tree a).map Prod.snd
  | .endBatch tree => (Arena.endBatch tree a).map Prod.snd

end SequentProver
