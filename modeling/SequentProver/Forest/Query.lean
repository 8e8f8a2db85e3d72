import SequentProver.Forest.Basic

/-! # Asking a forest -/

namespace SequentProver.Forest

/-- The subtree at a node, or the error that there is none. -/
def nodeOrError (f : Forest) (node : NodeId) : Except TreeError ProofTree :=
  match f.node? node with
  | some proof => .ok proof
  | none => .error (.unknownNode node)

/-- A tree, or the error that there is none. -/
def treeOrError (f : Forest) (tree : TreeId) : Except TreeError Tree :=
  match f.tree? tree with
  | some t => .ok t
  | none => .error (.unknownTree tree)

/-- The tree a node belongs to. -/
def treeOf (f : Forest) (node : NodeId) : Except TreeError TreeId :=
  match f.locate? node with
  | some (t, _) => .ok t.id
  | none => .error (.unknownNode node)

/-- The root of a tree. -/
def root (f : Forest) (tree : TreeId) : Except TreeError NodeId :=
  (f.treeOrError tree).map fun t => t.proof.id

/-- The level of a tree is that of its root. -/
def confidence (f : Forest) (tree : TreeId) : Except TreeError Confidence :=
  (f.treeOrError tree).map fun t => t.proof.confidence

/-- Whether the whole tree is proved or reviewed. -/
def isClosed (f : Forest) (tree : TreeId) : Except TreeError Bool :=
  (f.confidence tree).map Confidence.isClosed

/-- The open nodes below a node, in order. -/
def openDescendants (f : Forest) (node : NodeId) : Except TreeError (List NodeId) :=
  (f.nodeOrError node).map ProofTree.openNodes

/-- The first open node below a node. -/
def firstOpen (f : Forest) (node : NodeId) : Except TreeError (Option NodeId) :=
  (f.nodeOrError node).map ProofTree.firstOpen?

/-- Whether the proofs at two nodes agree but for their handles. -/
def deepEquals (f : Forest) (a b : NodeId) : Bool :=
  match f.node? a, f.node? b with
  | some p, some q => p.agrees q
  | _, _ => false

/-- What the proof at a node depends on in the node's sequent. -/
def nodeDependencies (f : Forest) (node : NodeId) : Except TreeError Dependencies :=
  (f.nodeOrError node).map ProofTree.dependencies

/-- What a tree depends on in the sequent of its root. -/
def proofDependencies (f : Forest) (tree : TreeId) : Except TreeError Dependencies :=
  (f.treeOrError tree).map fun t => t.proof.dependencies

/-- The rules and comments of the proof at a node. -/
def skeleton (f : Forest) (node : NodeId) : Except TreeError Skeleton :=
  (f.nodeOrError node).map ProofTree.skeleton

end SequentProver.Forest
