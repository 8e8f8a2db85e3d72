import SequentProver.Json.Rule
import SequentProver.Replay.Config
import SequentProver.Replay.Skeleton

/-! # JSON forms of skeletons and replay configurations

    In a skeleton everything may be left out; in a configuration too, but
    there no other field is allowed. -/

namespace SequentProver

namespace Skeleton

mutual

/-- A skeleton with those below it. -/
def toJson : Skeleton → Json
  | .mk comment rule children =>
    .obj [("comment", .str comment), ("rule", Json.ofOption Rule.toJson rule),
      ("children", .arr (toJsonAll children))]

/-- The skeletons of siblings. -/
def toJsonAll : List Skeleton → List Json
  | [] => []
  | s :: rest => toJson s :: toJsonAll rest

end

mutual

/-- Read a skeleton, from an object or from an array; what an object leaves out
    is empty. -/
def ofJson? : Json → Option Skeleton
  | .obj fields => do
    let comment ← Json.fieldOr? fields "comment" "" Json.str?
    let rule ← Json.optionalField? fields "rule" Rule.ofJson?
    let children ← childrenField? fields
    return .mk comment rule children
  | .arr [comment, rule] => do
    let comment ← comment.str?
    let rule ← rule.option? Rule.ofJson?
    return .mk comment rule []
  | .arr [comment, rule, .arr items] => do
    let comment ← comment.str?
    let rule ← rule.option? Rule.ofJson?
    let children ← ofJsonAll? items
    return .mk comment rule children
  | _ => none

/-- The children among the fields of an object; none when there is no
    such field. -/
def childrenField? : List (String × Json) → Option (List Skeleton)
  | [] => some []
  | (name, j) :: rest => if name = "children" then childrenOf? j else childrenField? rest

/-- Read the children from their array. -/
def childrenOf? : Json → Option (List Skeleton)
  | .arr items => ofJsonAll? items
  | _ => none

/-- Read siblings one by one. -/
def ofJsonAll? : List Json → Option (List Skeleton)
  | [] => some []
  | j :: rest => do
    let s ← ofJson? j
    let ss ← ofJsonAll? rest
    return s :: ss

end

end Skeleton

namespace ReplayConfig

/-- The names of the fields, in their order. -/
def fieldNames : List String := ["reuse_first", "rerun_reasoners", "keep_comments"]

/-- The three settings. -/
def toJson (c : ReplayConfig) : Json :=
  .obj [("reuse_first", .bool c.reuseFirst), ("rerun_reasoners", .bool c.rerunReasoners),
    ("keep_comments", .bool c.keepComments)]

/-- Read the settings.  What is left out is on, and there may be no other
    field. -/
def ofJson? (j : Json) : Option ReplayConfig := do
  let fields ← j.record? fieldNames 0
  if fields.all fun f => fieldNames.contains f.1 then
    let reuseFirst ← Json.fieldOr? fields "reuse_first" true Json.bool?
    let rerunReasoners ← Json.fieldOr? fields "rerun_reasoners" true Json.bool?
    let keepComments ← Json.fieldOr? fields "keep_comments" true Json.bool?
    return ⟨reuseFirst, rerunReasoners, keepComments⟩
  else none

end ReplayConfig

end SequentProver
