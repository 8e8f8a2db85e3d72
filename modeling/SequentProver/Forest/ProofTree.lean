import SequentProver.Forest.Delta
import SequentProver.Replay.Skeleton
import SequentProver.Reuse.Dependencies

/-! # Proof trees

    A proof tree is an open node, or a node with the rule applied to it and
    one subtree per antecedent.  Every node keeps its level of confidence,
    so that a change recomputes levels only on the way to the root, and
    only as far as they change.

    Route:
    1. the tree and its parts;
    2. traversals, all of them parents first and children in order;
    3. what a proof depends on, its skeleton, comparison of proofs;
    4. `edit`, the change of one node with the levels above it;
    5. `delta`, the recorded changes laid out along the tree. -/

namespace SequentProver

/-- What every node has, with or without a rule. -/
structure Node where
  id : NodeId
  sequent : Sequent
  comment : String := ""
  confidence : Confidence := .unattempted
  deriving DecidableEq

/-- A proof attempt: nodes with a rule have subtrees, open nodes have none. -/
inductive ProofTree where
  /-- A node without a rule. -/
  | openNode (node : Node)
  /-- A node with its rule, the actions that were skipped when the rule was
      applied, and one subtree per antecedent. -/
  | applied (node : Node) (rule : Rule) (skipped : SkippedActions) (children : List ProofTree)

namespace ProofTree

/-! ## Parts -/

/-- The node at the top. -/
def node : ProofTree → Node
  | .openNode node => node
  | .applied node _ _ _ => node

/-- The handle at the top. -/
def id (t : ProofTree) : NodeId := t.node.id

/-- The sequent at the top, which the tree is to prove. -/
def sequent (t : ProofTree) : Sequent := t.node.sequent

/-- The comment at the top. -/
def comment (t : ProofTree) : String := t.node.comment

/-- The level of confidence as it is stored at the top. -/
def confidence (t : ProofTree) : Confidence := t.node.confidence

/-- The subtrees below the top. -/
def children : ProofTree → List ProofTree
  | .openNode _ => []
  | .applied _ _ _ children => children

/-- The rule at the top, if one was applied. -/
def rule? : ProofTree → Option Rule
  | .openNode _ => none
  | .applied _ rule _ _ => some rule

/-- The actions that the rule at the top skipped; none at an open node. -/
def skipped : ProofTree → SkippedActions
  | .openNode _ => {}
  | .applied _ _ skipped _ => skipped

/-- Whether the top still waits for a rule. -/
def isOpen (t : ProofTree) : Bool := t.rule?.isNone

/-- Change the node at the top. -/
def mapNode (f : Node → Node) : ProofTree → ProofTree
  | .openNode node => .openNode (f node)
  | .applied node rule skipped children => .applied (f node) rule skipped children

/-- Take the rule off the node at the top. -/
def withoutRule (t : ProofTree) : ProofTree := .openNode t.node

/-! ## Traversals -/

mutual

/-- The handles of all nodes, parents first. -/
def ids : ProofTree → List NodeId
  | .openNode node => [node.id]
  | .applied node _ _ children => node.id :: idsAmong children

/-- The handles in siblings, tree by tree. -/
def idsAmong : List ProofTree → List NodeId
  | [] => []
  | t :: rest => ids t ++ idsAmong rest

end

mutual

/-- The handles of all nodes, children first. -/
def idsUpward : ProofTree → List NodeId
  | .openNode node => [node.id]
  | .applied node _ _ children => idsUpwardAmong children ++ [node.id]

/-- The handles in siblings, each tree from its leaves up. -/
def idsUpwardAmong : List ProofTree → List NodeId
  | [] => []
  | t :: rest => idsUpward t ++ idsUpwardAmong rest

end

mutual

/-- The subtree at a node. -/
def find? (target : NodeId) : ProofTree → Option ProofTree
  | .openNode node => if node.id = target then some (.openNode node) else none
  | .applied node rule skipped children =>
    if node.id = target then some (.applied node rule skipped children)
    else findAmong? target children

/-- The subtree with the handle in one of the siblings. -/
def findAmong? (target : NodeId) : List ProofTree → Option ProofTree
  | [] => none
  | t :: rest =>
    match find? target t with
    | some found => some found
    | none => findAmong? target rest

end

mutual

/-- The node that has the given one as a child. -/
def parent? (target : NodeId) : ProofTree → Option NodeId
  | .openNode _ => none
  | .applied node _ _ children =>
    if children.any fun c => c.id = target then some node.id else parentAmong? target children

/-- The parent of the handle inside one of the siblings. -/
def parentAmong? (target : NodeId) : List ProofTree → Option NodeId
  | [] => none
  | t :: rest =>
    match parent? target t with
    | some found => some found
    | none => parentAmong? target rest

end

mutual

/-- The open nodes, in order. -/
def openNodes : ProofTree → List NodeId
  | .openNode node => [node.id]
  | .applied _ _ _ children => openNodesAmong children

/-- The open nodes of siblings, from left to right. -/
def openNodesAmong : List ProofTree → List NodeId
  | [] => []
  | t :: rest => openNodes t ++ openNodesAmong rest

end

mutual

/-- The first open node; the search ends there. -/
def firstOpen? : ProofTree → Option NodeId
  | .openNode node => some node.id
  | .applied _ _ _ children => firstOpenAmong? children

/-- The first open node in siblings. -/
def firstOpenAmong? : List ProofTree → Option NodeId
  | [] => none
  | t :: rest =>
    match firstOpen? t with
    | some found => some found
    | none => firstOpenAmong? rest

end

/-! ## Proofs -/

mutual

/-- What the proof depends on in the sequent at the top. -/
def dependencies : ProofTree → Dependencies
  | .openNode node => Dependencies.openLeaf node.sequent
  | .applied node rule skipped children =>
    rule.foldDependencies (dependenciesAmong children) node.sequent.env skipped

/-- What siblings depend on, each with the names that its sequent binds. -/
def dependenciesAmong : List ProofTree → List (Dependencies × TypeEnv)
  | [] => []
  | t :: rest => (dependencies t, t.sequent.env) :: dependenciesAmong rest

end

mutual

/-- The rules and comments without the sequents. -/
def skeleton : ProofTree → Skeleton
  | .openNode node => .mk node.comment none []
  | .applied node rule _ children => .mk node.comment (some rule) (skeletonAmong children)

/-- The skeletons of siblings. -/
def skeletonAmong : List ProofTree → List Skeleton
  | [] => []
  | t :: rest => skeleton t :: skeletonAmong rest

end

/-- Whether two nodes agree but for their handles. -/
def nodeAgrees (n m : Node) : Bool :=
  n.sequent.sameAs m.sequent && n.comment = m.comment && n.confidence = m.confidence

mutual

/-- Whether two proofs agree but for their handles. -/
def agrees : ProofTree → ProofTree → Bool
  | .openNode n, .openNode m => nodeAgrees n m
  | .applied n rule _ children, .applied m rule' _ children' =>
    nodeAgrees n m && rule = rule' && agreesAmong children children'
  | _, _ => false

/-- Whether siblings agree one by one; lists of different lengths do not. -/
def agreesAmong : List ProofTree → List ProofTree → Bool
  | [], [] => true
  | t :: rest, t' :: rest' => agrees t t' && agreesAmong rest rest'
  | _, _ => false

end

/-! ## Editing -/

/-- The level of the node at the top, from its rule and the levels of its
    children: the lowest of them.  An open node is pending when it has a
    comment and unattempted when it has none. -/
def level : ProofTree → Confidence
  | .openNode node => if node.comment = "" then .unattempted else .pending
  | .applied _ rule _ children =>
    children.foldl (fun lowest c => lowest.min c.confidence) rule.confidence

/-- What came of a change: the new tree or trees, whether the level at the
    top moved, and the nodes above the changed one whose level moved. -/
structure Edited (α : Type) where
  result : α
  moved : Bool
  risen : List NodeId

/-- Give the node at the top its level again. -/
def settle (t : ProofTree) : Edited ProofTree :=
  if t.level = t.confidence then ⟨t, false, []⟩
  else ⟨t.mapNode fun n => { n with confidence := t.level }, true, []⟩

/-- Give a node its level again after a change among its children.  When
    no level among them moved, neither does this one. -/
def settleAbove (node : Node) (rule : Rule) (skipped : SkippedActions)
    (below : Edited (List ProofTree)) : Edited ProofTree :=
  let t := ProofTree.applied node rule skipped below.result
  if below.moved then
    let settled := t.settle
    ⟨settled.result, settled.moved, if settled.moved then below.risen ++ [node.id] else below.risen⟩
  else ⟨t, false, below.risen⟩

mutual

/-- Change the subtree at a node and settle the levels from there up. -/
def edit (target : NodeId) (change : ProofTree → ProofTree) :
    ProofTree → Option (Edited ProofTree)
  | .openNode node =>
    if node.id = target then some (change (.openNode node)).settle else none
  | .applied node rule skipped children =>
    if node.id = target then some (change (.applied node rule skipped children)).settle
    else (editAmong target change children).map (settleAbove node rule skipped)

/-- Edit the node in the one sibling that has it. -/
def editAmong (target : NodeId) (change : ProofTree → ProofTree) :
    List ProofTree → Option (Edited (List ProofTree))
  | [] => none
  | t :: rest =>
    match edit target change t with
    | some e => some ⟨e.result :: rest, e.moved, e.risen⟩
    | none => (editAmong target change rest).map fun e => ⟨t :: e.result, e.moved, e.risen⟩

end

/-! ## Deltas -/

/-- A change recorded on a node. -/
abbrev Record := NodeId × DeltaFlags

/-- All flags recorded for a node. -/
def recordedFlags (records : List Record) (id : NodeId) : DeltaFlags :=
  (records.filter fun r => r.1 = id).foldl (fun acc r => acc.union r.2) .none

/-- Whether something is recorded for a node. -/
def isRecorded (records : List Record) (id : NodeId) : Bool :=
  records.any fun r => r.1 = id

/-- The delta at a node from the deltas of its children; none when there
    is no record at the node or below. -/
def deltaAt (records : List Record) (id : NodeId) (below : List NodeDelta) : Option NodeDelta :=
  if isRecorded records id || !below.isEmpty then
    some (.mk id (recordedFlags records id) below)
  else none

mutual

/-- The recorded nodes and the nodes on the way to them. -/
def delta? (records : List Record) : ProofTree → Option NodeDelta
  | .openNode node => deltaAt records node.id []
  | .applied node _ _ children => deltaAt records node.id (deltaAmong records children)

/-- The deltas of those siblings where something is recorded. -/
def deltaAmong (records : List Record) : List ProofTree → List NodeDelta
  | [] => []
  | t :: rest =>
    match delta? records t with
    | some d => d :: deltaAmong records rest
    | none => deltaAmong records rest

end

end ProofTree

end SequentProver
