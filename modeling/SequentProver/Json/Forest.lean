import SequentProver.Forest.Delta
import SequentProver.Json.Basic

/-! # JSON forms of handles and deltas

    Numbers of handles are read up to thirty-two bits, flags up to eight. -/

namespace SequentProver

/-- A natural number of at most thirty-two bits. -/
def Json.word? (j : Json) : Option Nat := (j.intBetween? 0 4294967295).map Int.toNat

namespace NodeId

/-- The two numbers of a handle. -/
def toJson (id : NodeId) : Json :=
  .obj [("index", .int id.index), ("generation", .int id.generation)]

/-- Read the two numbers, each within its 32 bits. -/
def ofJson? (j : Json) : Option NodeId := do
  let fields ← j.record? ["index", "generation"] 2
  let index ← Json.field? fields "index" Json.word?
  let generation ← Json.field? fields "generation" Json.word?
  return ⟨index, generation⟩

end NodeId

namespace TreeId

/-- The number of the tree. -/
def toJson (id : TreeId) : Json := .int id.number

/-- Read the number, within its 32 bits. -/
def ofJson? (j : Json) : Option TreeId := j.word?.map TreeId.mk

end TreeId

namespace DeltaFlags

/-- The flags as one number. -/
def toJson (f : DeltaFlags) : Json := .int f.bits.toNat

/-- Read one byte. -/
def ofJson? (j : Json) : Option DeltaFlags :=
  (j.intBetween? 0 255).map fun n => ⟨UInt8.ofNat n.toNat⟩

end DeltaFlags

namespace NodeDelta

mutual

/-- The delta of a node with those below it. -/
def toJson : NodeDelta → Json
  | .mk node flags children =>
    .obj [("node", node.toJson), ("flags", flags.toJson), ("children", .arr (toJsonAll children))]

/-- The deltas of siblings. -/
def toJsonAll : List NodeDelta → List Json
  | [] => []
  | d :: rest => toJson d :: toJsonAll rest

end

mutual

/-- Read a delta, from an object or from an array of three. -/
def ofJson? : Json → Option NodeDelta
  | .obj fields => do
    let node ← Json.field? fields "node" NodeId.ofJson?
    let flags ← Json.field? fields "flags" DeltaFlags.ofJson?
    let children ← childrenField? fields
    return .mk node flags children
  | .arr [node, flags, .arr items] => do
    let node ← NodeId.ofJson? node
    let flags ← DeltaFlags.ofJson? flags
    let children ← ofJsonAll? items
    return .mk node flags children
  | _ => none

/-- The children among the fields of an object. -/
def childrenField? : List (String × Json) → Option (List NodeDelta)
  | [] => none
  | (name, j) :: rest => if name = "children" then childrenOf? j else childrenField? rest

/-- Read the children from their array. -/
def childrenOf? : Json → Option (List NodeDelta)
  | .arr items => ofJsonAll? items
  | _ => none

/-- Read siblings one by one. -/
def ofJsonAll? : List Json → Option (List NodeDelta)
  | [] => some []
  | j :: rest => do
    let d ← ofJson? j
    let ds ← ofJsonAll? rest
    return d :: ds

end

end NodeDelta

namespace TreeDelta

/-- The delta of a tree. -/
def toJson (d : TreeDelta) : Json := .obj [("tree", d.tree.toJson), ("root", d.root.toJson)]

/-- Read the delta of a tree. -/
def ofJson? (j : Json) : Option TreeDelta := do
  let fields ← j.record? ["tree", "root"] 2
  let tree ← Json.field? fields "tree" TreeId.ofJson?
  let root ← Json.field? fields "root" NodeDelta.ofJson?
  return ⟨tree, root⟩

end TreeDelta

end SequentProver
