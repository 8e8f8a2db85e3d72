import SequentProver.Json.Formula
import SequentProver.Reuse.Dependencies

/-! # JSON form of dependencies -/

namespace SequentProver.Dependencies

/-- The record of what a proof depends on. -/
def toJson (d : Dependencies) : Json :=
  .obj [("goal", Json.ofOption Pred.toJson d.goal), ("used_hyps", Json.ofSet Pred.toJson d.hyps),
    ("used_free_idents", Json.ofSet TypedName.toJson d.idents),
    ("introduced_free_idents", Json.ofSet Json.str d.introduced),
    ("used_reasoners", Json.ofSet Json.str d.reasoners)]

/-- Read it back; every field but the goal is required. -/
def ofJson? (j : Json) : Option Dependencies := do
  let fields ← j.record? ["goal", "used_hyps", "used_free_idents", "introduced_free_idents",
    "used_reasoners"] 5
  let goal ← Json.optionalField? fields "goal" Pred.ofJson?
  let hyps ← Json.field? fields "used_hyps" (Json.set? Pred.ofJson?)
  let idents ← Json.field? fields "used_free_idents" (Json.set? TypedName.ofJson?)
  let introduced ← Json.field? fields "introduced_free_idents" (Json.set? Json.str?)
  let reasoners ← Json.field? fields "used_reasoners" (Json.set? Json.str?)
  return ⟨goal, hyps, idents, introduced, reasoners⟩

end SequentProver.Dependencies
