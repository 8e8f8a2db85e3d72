import SequentProver.Forest.Slots

/-! # Proof forests

    A forest holds proof trees under handles that are never given out
    twice.  Changes to a tree are recorded; when the outermost batch on the
    tree ends, its listeners hear one delta with all that is recorded.

    Like slots, trees are counted without a limit.  With 32-bit handles an
    operation could also be refused because there are no handles left; that
    refusal is left out of `TreeError`. -/

namespace SequentProver

/-! ## Errors -/

/-- Why an operation on a forest was refused. -/
inductive TreeError where
  | unknownNode (node : NodeId)
  | unknownTree (tree : TreeId)
  | nodeNotOpen (node : NodeId)
  | ruleNotApplicable (node : NodeId) (display : String)
  deriving DecidableEq

namespace TreeError

/-- The name of the cause. -/
def kind : TreeError → String
  | .unknownNode _ => "UnknownNode"
  | .unknownTree _ => "UnknownTree"
  | .nodeNotOpen _ => "NodeNotOpen"
  | .ruleNotApplicable _ _ => "RuleNotApplicable"

/-- What is said to the user. -/
def message : TreeError → String
  | .unknownNode node => "unknown node " ++ node.text
  | .unknownTree tree => "unknown tree " ++ tree.text
  | .nodeNotOpen node => "node " ++ node.text ++ " already has a rule applied"
  | .ruleNotApplicable node display =>
    "rule " ++ Text.quoted display ++ " does not apply to node " ++ node.text

end TreeError

/-! ## Trees -/

/-- A proof under its own handle, with the books kept for its listeners. -/
structure Tree where
  id : TreeId
  /-- A tag of the user's. -/
  origin : Option String := none
  proof : ProofTree
  /-- The changes not yet heard of. -/
  records : List ProofTree.Record := []
  /-- How many batches are open. -/
  batches : Nat := 0
  listeners : List Nat := []
  nextListener : Nat := 0

namespace Tree

/-- Change one node, recording the flags on it and every level that moved
    above it. -/
def editNode (t : Tree) (node : NodeId) (flags : DeltaFlags) (change : ProofTree → ProofTree) :
    Tree :=
  match t.proof.edit node change with
  | some e =>
    { t with
      proof := e.result
      records := t.records ++ (node, flags) :: e.risen.map fun id => (id, .confidence) }
  | none => t

/-- The delta of what is recorded, as far as it is still in the tree. -/
def delta? (t : Tree) : Option TreeDelta :=
  (t.proof.delta? t.records).map fun root => ⟨t.id, root⟩

end Tree

/-- A delta on its way to a listener. -/
structure Notice where
  listener : Nat
  delta : TreeDelta

/-! ## Forests -/

/-- The trees in the order in which they were made, and all that listeners
    have heard. -/
structure Forest where
  slots : Slots := {}
  trees : List Tree := []
  nextTree : Nat := 0
  notices : List Notice := []

namespace Forest

/-- No trees at all. -/
def empty : Forest := {}

/-- Number of nodes. -/
def nodeCount (f : Forest) : Nat := f.slots.inUse

/-- The tree under a handle. -/
def tree? (f : Forest) (id : TreeId) : Option Tree := f.trees.find? fun t => t.id = id

/-- A node's tree and the subtree at the node. -/
def locate? (f : Forest) (node : NodeId) : Option (Tree × ProofTree) :=
  f.trees.findSome? fun t => (t.proof.find? node).map fun p => (t, p)

/-- The subtree at a node. -/
def node? (f : Forest) (node : NodeId) : Option ProofTree := (f.locate? node).map Prod.snd

/-- The node above the given one. -/
def parent? (f : Forest) (node : NodeId) : Option NodeId :=
  f.trees.findSome? fun t => t.proof.parent? node

/-- Change the tree with the given handle. -/
def updateTree (f : Forest) (id : TreeId) (change : Tree → Tree) : Forest :=
  { f with trees := f.trees.map fun t => if t.id = id then change t else t }

/-- Change one node of a tree. -/
def editNode (f : Forest) (tree : TreeId) (node : NodeId) (flags : DeltaFlags)
    (change : ProofTree → ProofTree) : Forest :=
  f.updateTree tree fun t => t.editNode node flags change

/-- Plant a proof as a new tree. -/
def plant (f : Forest) (origin : Option String) (proof : ProofTree) : TreeId × Forest :=
  let id : TreeId := ⟨f.nextTree⟩
  (id, { f with
    trees := f.trees ++ [{ id := id, origin := origin, proof := proof }]
    nextTree := f.nextTree + 1 })

/-- Plant several proofs, one after the other. -/
def plantAll (f : Forest) : List ProofTree → List TreeId × Forest
  | [] => ([], f)
  | proof :: rest =>
    let (id, f) := f.plant none proof
    let (ids, f) := f.plantAll rest
    (id :: ids, f)

/-! ## Batches -/

/-- Open a batch on a tree. -/
def beginBatch (f : Forest) (tree : TreeId) : Forest :=
  f.updateTree tree fun t => { t with batches := t.batches + 1 }

/-- Close a batch.  When it was the outermost one, what is recorded is
    told to every listener and forgotten. -/
def endBatch (f : Forest) (tree : TreeId) : Forest :=
  match f.tree? tree with
  | none => f
  | some t =>
    let closed := f.updateTree tree fun t => { t with batches := t.batches - 1 }
    if t.batches ≤ 1 then
      let told := match t.delta? with
        | some delta => t.listeners.map fun l => ⟨l, delta⟩
        | none => []
      { closed.updateTree tree fun t => { t with records := [] } with
        notices := f.notices ++ told }
    else closed

/-- Run a change of the forest as a batch on a tree. -/
def inBatch {α : Type} (f : Forest) (tree : TreeId) (body : Forest → α × Forest) : α × Forest :=
  let (answer, f) := body (f.beginBatch tree)
  (answer, f.endBatch tree)

end Forest

end SequentProver
