import SequentProver.Replay.Basic

/-! # Arenas

    A forest keeps its nodes apart from each other, in numbered slots.  What
    is stored for a node names the tree that the node is in, the node above
    it and the nodes below it, each by its handle; nothing but the work done
    on the arena keeps these in step.  An arena is a forest laid out that
    way, with every change written field by field.

    Route:
    1. nodes, slots and trees as they are stored;
    2. `Work`, what is done on an arena: it answers, it is refused, or it
       does not end;
    3. the slots: handing out, giving back, writing;
    4. the walks: down the children with a stack, up the parents.

    A walk follows the stored handles wherever they lead, so it is counted:
    one that takes more turns than there are slots does not end.  As with
    `Slots`, there is no limit to the number of slots, generations or trees,
    and no slot is withdrawn. -/

namespace SequentProver

/-! ## What is stored -/

/-- What is stored for a node. -/
structure Arena.NodeData where
  /-- The tree that the node is in. -/
  tree : TreeId
  /-- The node above it; a root has none. -/
  parent : Option NodeId
  sequent : Sequent
  comment : String := ""
  rule : Option Rule := none
  /-- The actions that were skipped when the rule was applied. -/
  skipped : SkippedActions := {}
  /-- The nodes below it. -/
  children : List NodeId := []
  confidence : Confidence := .unattempted
  deriving DecidableEq

/-- A slot, with what is stored in it if it is in use. -/
structure Arena.Slot where
  generation : Nat
  data : Option Arena.NodeData
  deriving DecidableEq

/-- What is stored for a tree: its root, and the books kept for its
    listeners. -/
structure Arena.TreeEntry where
  id : TreeId
  origin : Option String := none
  root : NodeId
  records : List ProofTree.Record := []
  batches : Nat := 0
  listeners : List Nat := []
  nextListener : Nat := 0

/-- Nodes in slots, and trees that name their roots. -/
structure Arena where
  nodes : List Arena.Slot := []
  /-- The empty slots, the next one to use first. -/
  free : List Nat := []
  trees : List Arena.TreeEntry := []
  nextTree : Nat := 0
  notices : List Notice := []

namespace Arena

/-- No slots and no trees. -/
def empty : Arena := {}

/-- What is stored for a node, if the handle is the current one of a slot in
    use. -/
def data? (a : Arena) (n : NodeId) : Option NodeData :=
  match a.nodes[n.index]? with
  | some slot => if slot.generation = n.generation then slot.data else none
  | none => none

/-- What is stored for a tree. -/
def tree? (a : Arena) (id : TreeId) : Option TreeEntry := a.trees.find? fun t => t.id = id

/-- Number of nodes, from the lengths alone. -/
def nodeCount (a : Arena) : Nat := a.nodes.length - a.free.length

/-- An open node in a tree, below the given parent. -/
def NodeData.ofSequent (tree : TreeId) (parent : Option NodeId) (sequent : Sequent) : NodeData :=
  { tree := tree, parent := parent, sequent := sequent }

/-! ## Work -/

/-- Work on an arena.  It answers or is refused, and leaves an arena behind;
    without a result it does not end. -/
def Work (α : Type) : Type := Arena → Option (Except TreeError α × Arena)

namespace Work

/-- Do one piece of work after the other; a refusal ends both. -/
def andThen {α β : Type} (w : Work α) (next : α → Work β) : Work β := fun a =>
  match w a with
  | some (.ok x, a) => next x a
  | some (.error e, a) => some (.error e, a)
  | none => none

instance : Monad Work where
  pure x := fun a => some (.ok x, a)
  bind := andThen

/-- Look something up. -/
def ask {α : Type} (look : Arena → α) : Work α := fun a => some (.ok (look a), a)

/-- Change the arena. -/
def update (change : Arena → Arena) : Work Unit := fun a => some (.ok (), change a)

/-- Change the arena with an answer. -/
def perform {α : Type} (change : Arena → α × Arena) : Work α := fun a =>
  some (.ok (change a).1, (change a).2)

/-- Refuse, or go on with an answer. -/
def orRefuse {α : Type} : Except TreeError α → Work α
  | .ok x => pure x
  | .error e => fun a => some (.error e, a)

/-- Take a refusal for an answer. -/
def attempt {α : Type} (w : Work α) : Work (Except TreeError α) := fun a =>
  (w a).map fun result => (.ok result.1, result.2)

/-- Work that does not end. -/
def unending {α : Type} : Work α := fun _ => none

/-- The same work for each of several things. -/
def each {α β : Type} (w : α → Work β) : List α → Work (List β)
  | [] => pure []
  | x :: rest => do
    let y ← w x
    let ys ← each w rest
    return y :: ys

end Work

/-! ## Slots -/

/-- Store a node in the first slot of the list that there is, and in a new
    one if there is none. -/
def storeIn (a : Arena) (d : NodeData) : List Nat → NodeId × Arena
  | [] => (⟨a.nodes.length, 0⟩, { a with nodes := a.nodes ++ [⟨0, some d⟩], free := [] })
  | index :: rest =>
    match a.nodes[index]? with
    | some slot =>
      (⟨index, slot.generation⟩,
        { a with nodes := a.nodes.set index { slot with data := some d }, free := rest })
    | none => storeIn a d rest

/-- Store a new node, in the slot given back last. -/
def alloc (a : Arena) (d : NodeData) : NodeId × Arena := a.storeIn d a.free

/-- Empty the slot of a node; it is used again under its next generation.
    The answer is what was stored. -/
def release (a : Arena) (n : NodeId) : Option NodeData × Arena :=
  match a.data? n with
  | some d =>
    (some d, { a with
      nodes := a.nodes.modify n.index fun slot => ⟨slot.generation + 1, none⟩
      free := n.index :: a.free })
  | none => (none, a)

/-- Store something else for a node. -/
def put (a : Arena) (n : NodeId) (d : NodeData) : Arena :=
  { a with nodes := a.nodes.modify n.index fun slot => { slot with data := some d } }

/-- What is stored for a node; a handle without a node is refused. -/
def data (n : NodeId) : Work NodeData := do
  match ← Work.ask fun a => a.data? n with
  | some d => return d
  | none => Work.orRefuse (.error (.unknownNode n))

/-- Change what is stored for a node. -/
def write (n : NodeId) (change : NodeData → NodeData) : Work Unit := do
  let d ← data n
  Work.update fun a => a.put n (change d)

/-- A handle for a new tree. -/
def newTree : Work TreeId :=
  Work.perform fun a => (⟨a.nextTree⟩, { a with nextTree := a.nextTree + 1 })

/-- Handles for several new trees. -/
def newTrees : Nat → Work (List TreeId)
  | 0 => return []
  | count + 1 => do
    let id ← newTree
    let ids ← newTrees count
    return id :: ids

/-- Enter a new tree; handles are given out in order, so it comes last. -/
def enter (entry : TreeEntry) : Work Unit :=
  Work.update fun a => { a with trees := a.trees ++ [entry] }

/-- Change the entry of a tree. -/
def updateTree (a : Arena) (id : TreeId) (change : TreeEntry → TreeEntry) : Arena :=
  { a with trees := a.trees.map fun t => if t.id = id then change t else t }

/-- Note a change of a node in the books of a tree. -/
def record (tree : TreeId) (n : NodeId) (flags : DeltaFlags) : Work Unit :=
  Work.update fun a => a.updateTree tree fun t => { t with records := t.records ++ [(n, flags)] }

/-! ## Walks -/

/-- Empty the slots of the nodes on the stack and of all below them. -/
def discard : Nat → List NodeId → Work Unit
  | _, [] => return ()
  | 0, _ :: _ => Work.unending
  | turns + 1, n :: stack => do
    match ← Work.perform fun a => a.release n with
    | some d => discard turns (d.children.reverse ++ stack)
    | none => discard turns stack

/-- Put the nodes on the stack and all below them into a tree. -/
def retree (tree : TreeId) : Nat → List NodeId → Work Unit
  | _, [] => return ()
  | 0, _ :: _ => Work.unending
  | turns + 1, n :: stack => do
    let d ← data n
    write n fun d => { d with tree := tree }
    retree tree turns (d.children.reverse ++ stack)

/-- Move the nodes from `top` down under a parent in a tree. -/
def reparent (top : NodeId) (parent : Option NodeId) (tree : TreeId) : Work Unit := do
  write top fun d => { d with parent := parent }
  let turns ← Work.ask fun a => a.nodes.length
  retree tree turns [top]

/-- Copy a node and all below it, parents first; the children of the copy
    are written when they are there. -/
def copyNode (tree : TreeId) : Nat → NodeId → Option NodeId → Work NodeId
  | 0, _, _ => Work.unending
  | turns + 1, source, parent => do
    let d ← data source
    let id ← Work.perform fun a => a.alloc { d with tree := tree, parent := parent, children := [] }
    let children ← Work.each (fun child => copyNode tree turns child (some id)) d.children
    write id fun d => { d with children := children }
    return id

/-- The level that a node should have by its rule and the levels stored for
    its children. -/
def levelOf (a : Arena) (d : NodeData) : Confidence :=
  match d.rule with
  | none => if d.comment = "" then .unattempted else .pending
  | some rule =>
    ((d.children.filterMap a.data?).map NodeData.confidence).foldl Confidence.min rule.confidence

/-- Give a node its level again; answers whether it moved. -/
def recompute (n : NodeId) : Work Bool := do
  match ← Work.ask fun a => a.data? n with
  | none => return false
  | some d =>
    let level ← Work.ask fun a => a.levelOf d
    if level = d.confidence then return false
    else
      write n fun d => { d with confidence := level }
      return true

/-- The node above the given one, and the tree that the two are in. -/
def above? (a : Arena) (n : NodeId) : Option (NodeId × TreeId) :=
  (a.data? n).bind fun d => d.parent.map fun parent => (parent, d.tree)

/-- Give the nodes above a node their levels again, as far as they move. -/
def climb : Nat → NodeId → Work Unit
  | turns, n => do
    match ← Work.ask fun a => a.above? n with
    | none => return ()
    | some (parent, tree) =>
      match turns with
      | 0 => Work.unending
      | turns + 1 =>
        if ← recompute parent then
          record tree parent .confidence
          climb turns parent
        else return ()

/-- Give a node its level again, and the nodes above it as far as they
    move. -/
def settleFrom (turns : Nat) (n : NodeId) : Work Unit := do
  if ← recompute n then climb turns n else return ()

/-- The levels from a node up, after a change of the node. -/
def refresh (n : NodeId) : Work Unit := do
  let turns ← Work.ask fun a => a.nodes.length
  settleFrom turns n

/-! ## Deltas -/

/-- The nodes above a node, the nearest first. -/
def ancestors (a : Arena) : Nat → NodeId → Option (List NodeId)
  | turns, n =>
    match (a.data? n).bind NodeData.parent with
    | none => some []
    | some parent =>
      match turns with
      | 0 => none
      | turns + 1 => (a.ancestors turns parent).map fun rest => parent :: rest

/-- The records of nodes that are in the tree, each with the nodes above
    it. -/
def paths (a : Arena) (tree : TreeId) : List ProofTree.Record → Option (List ProofTree.Record)
  | [] => some []
  | (n, flags) :: rest => do
    let others ← a.paths tree rest
    if (a.data? n).any fun d => d.tree = tree then
      let up ← a.ancestors a.nodes.length n
      return (n, flags) :: up.map (fun id => (id, .none)) ++ others
    else return others

/-- The nodes of the records from a node down. -/
def shapeAt (a : Arena) (records : List ProofTree.Record) : Nat → NodeId → Option NodeDelta
  | 0, _ => none
  | turns + 1, n => do
    let children := ((a.data? n).map NodeData.children).getD []
    let recorded := children.filter fun c => ProofTree.isRecorded records c
    let below ← recorded.mapM fun c => a.shapeAt records turns c
    return .mk n (ProofTree.recordedFlags records n) below

/-- The records laid out along the way from the root; nodes that have left
    the tree are dropped. -/
def shape (a : Arena) (tree : TreeId) (root : NodeId) (records : List ProofTree.Record) :
    Option (Option TreeDelta) := do
  let paths ← a.paths tree records
  if paths.isEmpty then return none
  else
    let top ← a.shapeAt paths a.nodes.length root
    return some ⟨tree, top⟩

/-! ## Batches -/

/-- Open a batch on a tree. -/
def beginBatch (tree : TreeId) : Work Unit := do
  match ← Work.ask fun a => a.tree? tree with
  | none => Work.orRefuse (.error (.unknownTree tree))
  | some _ => Work.update fun a => a.updateTree tree fun t => { t with batches := t.batches + 1 }

/-- Tell the listeners of a tree what is recorded. -/
def tell (t : TreeEntry) : Work Unit := do
  match ← Work.ask fun a => a.shape t.id t.root t.records with
  | none => Work.unending
  | some none => return ()
  | some (some delta) =>
    Work.update fun a => { a with notices := a.notices ++ t.listeners.map fun l => ⟨l, delta⟩ }

/-- Close a batch.  When it was the outermost one and something is recorded,
    the listeners are told and the records forgotten. -/
def endBatch (tree : TreeId) : Work Unit := do
  match ← Work.ask fun a => a.tree? tree with
  | none => return ()
  | some t =>
    Work.update fun a => a.updateTree tree fun t => { t with batches := t.batches - 1 }
    if t.batches ≤ 1 ∧ t.records ≠ [] then
      Work.update fun a => a.updateTree tree fun t => { t with records := [] }
      tell t
    else return ()

/-- Work as a batch on a tree, which is closed also after a refusal. -/
def inBatch {α : Type} (tree : TreeId) (body : Work α) : Work α := do
  beginBatch tree
  let answer ← body.attempt
  endBatch tree
  Work.orRefuse answer

end Arena

end SequentProver
