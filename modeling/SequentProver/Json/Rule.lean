import SequentProver.Json.Formula
import SequentProver.Rule.Basic

/-! # JSON forms of rules

    Inputs name their kind and carry a value beside it; actions name their
    kind among their fields.  Inside an action the empty object too says
    that nothing goes with a constant.  Levels of confidence are integers. -/

namespace SequentProver

/-! ## Confidence and skipped actions -/

namespace Confidence

/-- The number of the level. -/
def toJson (c : Confidence) : Json := .int c.value

/-- Read any number of 32 bits. -/
def ofJson? (j : Json) : Option Confidence :=
  (j.intBetween? Int32.minValue.toInt Int32.maxValue.toInt).map fun n => ⟨Int32.ofInt n⟩

end Confidence

namespace SkippedActions

/-- The flags, row by row. -/
def toJson (s : SkippedActions) : Json := Json.ofList (Json.ofList Json.bool) s.rows

/-- Read the flags, row by row. -/
def ofJson? (j : Json) : Option SkippedActions :=
  (j.list? (Json.list? Json.bool?)).map SkippedActions.mk

end SkippedActions

/-! ## Inputs -/

namespace Input

/-- An input by its kind. -/
def toJson : Input → Json
  | .empty => .obj [("kind", .str "empty")]
  | .predicate p => .obj [("kind", .str "predicate"), ("value", p.toJson)]
  | .predicates ps => .obj [("kind", .str "predicates"), ("value", Json.ofList Pred.toJson ps)]
  | .comment text => .obj [("kind", .str "comment"), ("value", .str text)]

/-- An input of the given kind.  Only the empty one may do without a
    value, or have `null` for it. -/
def ofKind? (kind : String) (value : Option Json) : Option Input :=
  match kind, value with
  | "empty", none => some .empty
  | "empty", some .null => some .empty
  | "predicate", some j => (Pred.ofJson? j).map .predicate
  | "predicates", some j => (j.list? Pred.ofJson?).map .predicates
  | "comment", some j => j.str?.map .comment
  | _, _ => none

/-- In an object the kind is a constant, in an array it is plain text. -/
def ofJson? : Json → Option Input
  | .obj fields => do
    let kind ← Json.field? fields "kind" (Json.constant? .null)
    ofKind? kind (fields.lookup "value")
  | .arr [.str kind, value] => ofKind? kind (some value)
  | _ => none

end Input

/-! ## Actions -/

namespace Mark

/-- The marks by the word for their action. -/
def ofKind? : String → Option Mark
  | "select" => some .select
  | "deselect" => some .deselect
  | "hide" => some .hide
  | "show" => some .show
  | _ => none

end Mark

namespace Action

/-- A set of predicates. -/
def preds (s : SortedSet Pred) : Json := Json.ofSet Pred.toJson s

/-- An action by its kind, with its parts. -/
def toJson (a : Action) : Json :=
  let parts := match a with
    | .mark _ hyps => [("hyps", preds hyps)]
    | .infer sources idents inferred =>
      [("hyps", preds sources), ("added_idents", Json.ofList TypedName.toJson idents),
        ("inferred_hyps", preds inferred)]
    | .replace sources replacement toHide =>
      [("disappearing", preds sources), ("replacement", preds replacement),
        ("to_hide", preds toHide)]
  .obj (("kind", .str a.kind) :: parts)

/-- An action of the given kind, the rest of it as a record. -/
def ofKind? (kind : String) (rest : Json) : Option Action :=
  let predSet := Json.set? (Pred.ofJsonWith? .nullOrEmpty)
  match kind with
  | "forward_infer" => do
    let fields ← rest.record? ["hyps", "added_idents", "inferred_hyps"] 3
    let sources ← Json.field? fields "hyps" predSet
    let idents ← Json.field? fields "added_idents"
      (Json.list? (TypedName.ofJsonWith? .nullOrEmpty))
    let inferred ← Json.field? fields "inferred_hyps" predSet
    return .infer sources idents inferred
  | "rewrite" => do
    let fields ← rest.record? ["disappearing", "replacement", "to_hide"] 3
    let sources ← Json.field? fields "disappearing" predSet
    let replacement ← Json.field? fields "replacement" predSet
    let toHide ← Json.field? fields "to_hide" predSet
    return .replace sources replacement toHide
  -- the other kinds are marks, which differ in their name only
  | _ => do
    let m ← Mark.ofKind? kind
    let fields ← rest.record? ["hyps"] 1
    let hyps ← Json.field? fields "hyps" predSet
    return .mark m hyps

/-- The kind is a field beside the others, or the first item of an array
    that holds the others in their order. -/
def ofJson? : Json → Option Action
  | .obj fields => do
    let kind ← Json.field? fields "kind" Json.str?
    ofKind? kind (.obj fields)
  | .arr (kind :: items) => do
    let kind ← kind.str?
    ofKind? kind (.arr items)
  | _ => none

end Action

/-! ## Antecedents and rules -/

namespace Antecedent

/-- An antecedent with all its fields. -/
def toJson (a : Antecedent) : Json :=
  .obj [("goal", Json.ofOption Pred.toJson a.goal), ("added_hyps", Json.ofSet Pred.toJson a.hyps),
    ("added_free_idents", Json.ofList TypedName.toJson a.idents),
    ("hyp_actions", Json.ofList Action.toJson a.actions)]

/-- Read an antecedent; only the goal may be left out. -/
def ofJson? (j : Json) : Option Antecedent := do
  let fields ← j.record? ["goal", "added_hyps", "added_free_idents", "hyp_actions"] 4
  let goal ← Json.optionalField? fields "goal" Pred.ofJson?
  let hyps ← Json.field? fields "added_hyps" (Json.set? Pred.ofJson?)
  let idents ← Json.field? fields "added_free_idents" (Json.list? TypedName.ofJson?)
  let actions ← Json.field? fields "hyp_actions" (Json.list? Action.ofJson?)
  return ⟨goal, hyps, idents, actions⟩

end Antecedent

namespace Rule

/-- A rule with all its fields. -/
def toJson (r : Rule) : Json :=
  .obj [("reasoner_id", .str r.reasoner), ("reasoner_input", r.input.toJson),
    ("display", .str r.display), ("goal", Json.ofOption Pred.toJson r.goal),
    ("needed_hyps", Json.ofSet Pred.toJson r.needed), ("confidence", r.confidence.toJson),
    ("antecedents", Json.ofList Antecedent.toJson r.antecedents)]

/-- Any level of confidence is read. -/
def ofJson? (j : Json) : Option Rule := do
  let fields ← j.record? ["reasoner_id", "reasoner_input", "display", "goal", "needed_hyps",
    "confidence", "antecedents"] 7
  let reasoner ← Json.field? fields "reasoner_id" Json.str?
  let input ← Json.fieldOr? fields "reasoner_input" .empty Input.ofJson?
  let display ← Json.field? fields "display" Json.str?
  let goal ← Json.optionalField? fields "goal" Pred.ofJson?
  let needed ← Json.field? fields "needed_hyps" (Json.set? Pred.ofJson?)
  let confidence ← Json.field? fields "confidence" Confidence.ofJson?
  let antecedents ← Json.field? fields "antecedents" (Json.list? Antecedent.ofJson?)
  return ⟨reasoner, input, display, goal, needed, confidence, antecedents⟩

end Rule

end SequentProver
