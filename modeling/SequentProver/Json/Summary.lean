import SequentProver.Forest.Query
import SequentProver.Json.Forest
import SequentProver.Json.Rule
import SequentProver.Reasoner.Basic

/-! # JSON summaries

    What is shown to a user: the parts of a value by their texts.  A
    summary is not read back. -/

namespace SequentProver

namespace Json

/-- Predicates as they are printed. -/
def ofPreds (l : List Pred) : Json := ofStrings (l.map Pred.text)

/-- Names as they are printed. -/
def ofIdents (l : List TypedName) : Json := ofStrings (l.map TypedName.text)

/-- A predicate as it is printed, if there is one. -/
def ofPred? (p : Option Pred) : Json := ofOption (fun p => .str p.text) p

end Json

/-! ## Sequents -/

/-- The names of an environment, with and without their types. -/
def TypeEnv.summary (env : TypeEnv) : Json :=
  .obj [("idents", Json.ofIdents env.idents), ("names", Json.ofStrings env.names),
    ("len", .int env.size), ("empty", .bool (env.size = 0))]

/-- A sequent by what is supposed in it and how each hypothesis stands. -/
def Sequent.summary (s : Sequent) : Json :=
  .obj [("env", Json.ofIdents s.env.idents), ("global", Json.ofPreds (s.ofOrigin .given)),
    ("local", Json.ofPreds (s.ofOrigin .derived)),
    ("hidden", Json.ofPreds (s.ofStanding .hidden)),
    ("selected", Json.ofPreds (s.ofStanding .selected)), ("goal", .str s.goal.text),
    ("text", .str s.text), ("fingerprint", .str s.fingerprint)]

/-- The hypotheses, all and visible, and the names of the environment. -/
def Sequent.listing (s : Sequent) : Json :=
  .obj [("hypotheses", Json.ofPreds s.hypotheses), ("visible", Json.ofPreds s.visible),
    ("count", .int s.hypotheses.length), ("names", Json.ofStrings s.env.names)]

/-- Whether a predicate is a hypothesis, hidden or selected. -/
def Sequent.standingSummary (s : Sequent) (p : Pred) : Json :=
  .obj [("contains", .bool (s.has p)), ("hidden", .bool (s.stands .hidden p)),
    ("selected", .bool (s.stands .selected p))]

/-! ## Rules -/

/-- A level of confidence with all that is asked of levels. -/
def Confidence.summary (c : Confidence) : Json :=
  .obj [("text", .str c.text), ("level", c.toJson), ("closed", .bool c.isClosed),
    ("reviewed", .bool c.isReviewed), ("discharged", .bool c.isDischarged),
    ("valid_for_rule", .bool c.isValidForRule)]

/-- What an action adds; marks add nothing. -/
def Action.detail : Action → Json
  | .mark _ _ => .null
  | .infer _ idents inferred =>
    .obj [("idents", Json.ofIdents idents), ("inferred", Json.ofPreds inferred.toList)]
  | .replace _ replacement toHide =>
    .obj [("replacement", Json.ofPreds replacement.toList),
      ("to_hide", Json.ofPreds toHide.toList)]

/-- An antecedent in printed form. -/
def Antecedent.summary (a : Antecedent) : Json :=
  .obj [("goal", Json.ofPred? a.goal), ("hyps", Json.ofPreds a.hyps.toList),
    ("idents", Json.ofIdents a.idents), ("actions", Json.ofStrings (a.actions.map Action.text))]

/-- A rule in printed form. -/
def Rule.summary (r : Rule) : Json :=
  .obj [("id", .str r.reasoner), ("text", .str r.display), ("confidence", r.confidence.toJson),
    ("goal", Json.ofPred? r.goal), ("needed", Json.ofPreds r.needed.toList),
    ("discharging", .bool r.isDischarging),
    ("antecedents", Json.ofList Antecedent.summary r.antecedents)]

/-- The names in a registry, their number, and the names as one text. -/
def Registry.parts (r : Registry) : List (String × Json) :=
  [("ids", Json.ofStrings r.ids), ("len", .int r.size), ("empty", .bool r.isEmpty),
    ("debug", .str r.outline)]

/-! ## Dependencies -/

/-- What a proof depends on, in printed form. -/
def Dependencies.parts (d : Dependencies) : List (String × Json) :=
  [("goal", Json.ofPred? d.goal), ("hyps", Json.ofPreds d.hyps.toList),
    ("idents", Json.ofIdents d.idents.toList), ("introduced", Json.ofStrings d.introduced.toList),
    ("reasoners", Json.ofStrings d.reasoners.toList)]

/-- The parts, whether there are any, and the digest. -/
def Dependencies.certificate (d : Dependencies) : Json :=
  .obj (d.parts ++ [("has_deps", .bool d.hasDeps), ("digest", .str d.digest)])

/-! ## Forests -/

namespace NodeId

/-- A handle in printed form. -/
def summary (id : NodeId) : Json := .str id.text

end NodeId

namespace TreeId

/-- A handle in printed form. -/
def summary (id : TreeId) : Json := .str id.text

end TreeId

/-- What a delta says of a node: how many children it has there, and its
    flags. -/
def TreeDelta.summary (d : TreeDelta) (node : NodeId) : Json :=
  .obj [("tree", d.tree.summary), ("root", d.root.node.summary),
    ("found", Json.ofOption (fun n => .int n.children.length) (d.find? node)),
    ("flags", .str (d.flagsOf node).text), ("ast", d.toJson)]

/-- The display of a rule, where there is one. -/
def ruleDisplay (r : Option Rule) : Json := Json.ofOption (fun r => .str r.display) r

namespace Skeleton

mutual

/-- Comment, rule and subtrees. -/
def summary : Skeleton → Json
  | .mk comment rule children => .arr [.str comment, ruleDisplay rule, .arr (summaries children)]

/-- Skeletons of siblings. -/
def summaries : List Skeleton → List Json
  | [] => []
  | s :: rest => summary s :: summaries rest

end

end Skeleton

namespace ProofTree

/-- Handle, level, rule, comment and sequent of the node at the top. -/
def row (t : ProofTree) : List Json :=
  [t.id.summary, t.confidence.toJson, ruleDisplay t.rule?, .str t.comment, .str t.sequent.text]

mutual

/-- The node at the top and its subtrees. -/
def summary : ProofTree → Json
  | .openNode node => .arr (row (.openNode node) ++ [.arr []])
  | .applied node rule skipped children =>
    .arr (row (.applied node rule skipped children) ++ [.arr (summaries children)])

/-- Subtrees of siblings. -/
def summaries : List ProofTree → List Json
  | [] => []
  | t :: rest => summary t :: summaries rest

end

end ProofTree

namespace Tree

/-- Handle, origin and proof. -/
def row (t : Tree) : Json :=
  .arr [t.id.summary, Json.ofOption Json.str t.origin, t.proof.summary]

/-- A tree by its root and the level there. -/
def summary (t : Tree) : Json :=
  .obj [("id", t.id.summary), ("origin", Json.ofOption Json.str t.origin),
    ("root", t.proof.id.summary), ("confidence", t.proof.confidence.toJson),
    ("closed", .bool t.proof.confidence.isClosed)]

end Tree

namespace Forest

/-- Number of nodes, and all trees. -/
def summary (f : Forest) : Json :=
  .obj [("nodes", .int f.nodeCount), ("trees", Json.ofList Tree.row f.trees)]

/-- All that is known of a node. -/
def nodeSummary? (f : Forest) (id : NodeId) : Option Json :=
  (f.locate? id).map fun (t, p) =>
    let parent := f.parent? id
    .obj [("tree", t.id.summary), ("parent", Json.ofOption NodeId.summary parent),
      ("is_root", .bool parent.isNone), ("open", .bool p.isOpen),
      ("closed", .bool p.confidence.isClosed), ("has_children", .bool !p.children.isEmpty),
      ("confidence", .str p.confidence.text), ("comment", .str p.comment),
      ("sequent", p.sequent.summary), ("rule", Json.ofOption Rule.toJson p.rule?),
      ("skipped", p.skipped.toJson)]

end Forest

end SequentProver
