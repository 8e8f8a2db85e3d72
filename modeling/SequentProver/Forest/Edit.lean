import SequentProver.Forest.Basic

/-! # Changing a forest

    Every operation answers, or says why it was refused, together with the
    forest after it.  A change of a tree is a batch of its own. -/

namespace SequentProver.Forest

/-! ## Trees -/

/-- Plant a tree with an open node on the given sequent. -/
def createTree (f : Forest) (sequent : Sequent) (origin : Option String) : TreeId × Forest :=
  let (id, slots) := f.slots.alloc
  { f with slots := slots }.plant origin (.openNode { id := id, sequent := sequent })

/-- Remove a tree with all its nodes; answers whether there was one. -/
def removeTree (f : Forest) (tree : TreeId) : Bool × Forest :=
  match f.tree? tree with
  | none => (false, f)
  | some t =>
    (true, { f with
      slots := f.slots.releaseAll t.proof.idsUpward
      trees := f.trees.filter fun t => t.id ≠ tree })

/-- Remove trees one after the other; handles of no tree are passed over. -/
def removeTrees (f : Forest) (trees : List TreeId) : Forest :=
  trees.foldl (fun acc t => (acc.removeTree t).2) f

/-- Plant a copy of the subtree at a node, under new handles. -/
def copySubtree (f : Forest) (node : NodeId) : Except TreeError TreeId × Forest :=
  match f.node? node with
  | none => (.error (.unknownNode node), f)
  | some proof =>
    let (copy, slots) := f.slots.copy proof
    let (id, f) := { f with slots := slots }.plant none copy
    (.ok id, f)

/-! ## Nodes -/

/-- The flags of a node that got or lost its rule. -/
def ruleFlags : DeltaFlags := DeltaFlags.union .rule .children

/-- Apply a rule to an open node, which gets one open child per
    antecedent. -/
def applyRule (f : Forest) (node : NodeId) (rule : Rule) : Except TreeError Unit × Forest :=
  match f.locate? node with
  | none => (.error (.unknownNode node), f)
  | some (t, proof) =>
    if proof.isOpen then
      match rule.expand proof.sequent with
      | none => (.error (.ruleNotApplicable node rule.display), f)
      | some (sequents, skipped) =>
        f.inBatch t.id fun f =>
          let (children, slots) := f.slots.openNodes sequents
          (.ok (), { f with slots := slots }.editNode t.id node ruleFlags fun p =>
            .applied p.node rule skipped children)
    else (.error (.nodeNotOpen node), f)

/-- Take the rule off a node.  Each subtree below it becomes a tree; their
    handles are the answer.  On an open node nothing happens. -/
def pruneChildren (f : Forest) (node : NodeId) : Except TreeError (List TreeId) × Forest :=
  match f.locate? node with
  | none => (.error (.unknownNode node), f)
  | some (t, proof) =>
    if proof.isOpen then (.ok [], f)
    else
      f.inBatch t.id fun f =>
        let (ids, f) :=
          (f.editNode t.id node ruleFlags ProofTree.withoutRule).plantAll proof.children
        (.ok ids, f)

/-- Take the rule off a node and remove the subtrees below it. -/
def pruneAndDiscard (f : Forest) (node : NodeId) : Except TreeError Unit × Forest :=
  match f.pruneChildren node with
  | (.error e, f) => (.error e, f)
  | (.ok trees, f) => (.ok (), f.removeTrees trees)

/-- Put a comment on a node.  The one already there changes nothing. -/
def setComment (f : Forest) (node : NodeId) (comment : String) :
    Except TreeError Unit × Forest :=
  match f.locate? node with
  | none => (.error (.unknownNode node), f)
  | some (t, proof) =>
    if proof.comment = comment then (.ok (), f)
    else
      f.inBatch t.id fun f =>
        (.ok (), f.editNode t.id node .comment fun p =>
          p.mapNode fun n => { n with comment := comment })

/-- Move the proof at the root of `source` to an open node of another tree
    whose sequent is the same; the root stays behind, open.  Answers
    whether something moved. -/
def graft (f : Forest) (node : NodeId) (source : TreeId) : Except TreeError Bool × Forest :=
  match f.locate? node, f.tree? source with
  | none, _ => (.error (.unknownNode node), f)
  | some _, none => (.error (.unknownTree source), f)
  | some (t, target), some donor =>
    match donor.proof with
    | .openNode _ => (.ok false, f)
    | .applied root rule skipped children =>
      if target.isOpen && t.id ≠ source && target.sequent.sameAs root.sequent then
        f.inBatch t.id fun f =>
          f.inBatch source fun f =>
            let emptied := f.editNode source root.id ruleFlags ProofTree.withoutRule
            (.ok true, emptied.editNode t.id node ruleFlags fun p =>
              .applied p.node rule skipped children)
      else (.ok false, f)

/-! ## Listeners -/

/-- Register a listener on a tree; it is known by a number. -/
def addListener (f : Forest) (tree : TreeId) : Except TreeError Nat × Forest :=
  match f.tree? tree with
  | none => (.error (.unknownTree tree), f)
  | some t =>
    (.ok t.nextListener, f.updateTree tree fun t =>
      { t with listeners := t.listeners ++ [t.nextListener], nextListener := t.nextListener + 1 })

/-- Remove a listener; answers whether there was one. -/
def removeListener (f : Forest) (tree : TreeId) (listener : Nat) : Bool × Forest :=
  match f.tree? tree with
  | none => (false, f)
  | some t =>
    (t.listeners.contains listener, f.updateTree tree fun t =>
      { t with listeners := t.listeners.filter fun l => l ≠ listener })

end SequentProver.Forest
