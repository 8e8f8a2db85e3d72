import SequentProver.Forest.Handle

/-! # Deltas

    A delta says what changed in one tree: the flagged nodes, and the nodes
    on the way to them, laid out as they lie in the tree. -/

namespace SequentProver

/-! ## Flags -/

/-- What changed on a node, as a set of bits. -/
structure DeltaFlags where
  bits : UInt8
  deriving DecidableEq, Inhabited

namespace DeltaFlags

/-- Nothing changed. -/
def none : DeltaFlags := ⟨0⟩

/-- Another rule, or none. -/
def rule : DeltaFlags := ⟨1⟩

/-- Other children. -/
def children : DeltaFlags := ⟨2⟩

/-- Another level of confidence. -/
def confidence : DeltaFlags := ⟨4⟩

/-- Another comment. -/
def comment : DeltaFlags := ⟨8⟩

/-- The flags of both. -/
def union (a b : DeltaFlags) : DeltaFlags := ⟨a.bits ||| b.bits⟩

/-- Whether nothing changed. -/
def isEmpty (a : DeltaFlags) : Bool := a = none

/-- Whether every flag of `b` is in `a`. -/
def contains (a b : DeltaFlags) : Bool := a.bits &&& b.bits = b.bits

/-- The known flags by name. -/
def names : List (DeltaFlags × String) :=
  [(rule, "RULE"), (children, "CHILDREN"), (confidence, "CONFIDENCE"), (comment, "COMMENT")]

/-- The names of the known flags; other bits are not written. -/
def text (a : DeltaFlags) : String :=
  Text.joined "|" ((names.filter fun n => a.contains n.1).map Prod.snd)

end DeltaFlags

/-! ## Deltas -/

/-- A node of a delta; its flags are empty when it only lies on the way to
    a change. -/
inductive NodeDelta where
  | mk (node : NodeId) (flags : DeltaFlags) (children : List NodeDelta)

namespace NodeDelta

/-- The node that the delta is about. -/
def node : NodeDelta → NodeId
  | .mk node _ _ => node

/-- What changed at the node itself. -/
def flags : NodeDelta → DeltaFlags
  | .mk _ flags _ => flags

/-- The deltas below it, in the order of the tree. -/
def children : NodeDelta → List NodeDelta
  | .mk _ _ children => children

mutual

/-- The first node with the given handle, from the top down. -/
def find? (target : NodeId) : NodeDelta → Option NodeDelta
  | .mk node flags children =>
    if node = target then some (.mk node flags children) else findAmong? target children

/-- The first delta with the handle in a list of siblings. -/
def findAmong? (target : NodeId) : List NodeDelta → Option NodeDelta
  | [] => none
  | d :: rest =>
    match find? target d with
    | some found => some found
    | none => findAmong? target rest

end

mutual

/-- The flagged nodes, parents before children. -/
def changed : NodeDelta → List NodeId
  | .mk node flags children =>
    (if flags.isEmpty then [] else [node]) ++ changedAmong children

/-- The nodes that changed below a list of siblings, in order. -/
def changedAmong : List NodeDelta → List NodeId
  | [] => []
  | d :: rest => changed d ++ changedAmong rest

end

mutual

/-- One line per node, indented by its depth. -/
def lines (depth : Nat) : NodeDelta → List String
  | .mk node flags children =>
    let shown := if flags.isEmpty then "" else " " ++ flags.text
    ("".pushn ' ' (2 * depth) ++ node.text ++ shown) :: linesAmong (depth + 1) children

/-- The lines for siblings, one after the other. -/
def linesAmong (depth : Nat) : List NodeDelta → List String
  | [] => []
  | d :: rest => lines depth d ++ linesAmong depth rest

end

end NodeDelta

/-- What changed in one tree. -/
structure TreeDelta where
  tree : TreeId
  root : NodeDelta

namespace TreeDelta

/-- The delta of a node, if it is part of this one. -/
def find? (d : TreeDelta) (node : NodeId) : Option NodeDelta := d.root.find? node

/-- The flags of a node; none when it is not in the delta. -/
def flagsOf (d : TreeDelta) (node : NodeId) : DeltaFlags :=
  match d.find? node with
  | some found => found.flags
  | none => .none

/-- The flagged nodes, parents before children. -/
def changed (d : TreeDelta) : List NodeId := d.root.changed

/-- One line for the tree and one for each node, indented by depth. -/
def text (d : TreeDelta) : String := Text.joined "\n" (d.tree.text :: d.root.lines 0)

end TreeDelta

end SequentProver
