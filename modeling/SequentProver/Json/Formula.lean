import SequentProver.Formula.Typing
import SequentProver.Json.Basic

/-! # JSON forms of formulas

    Constants are texts; a construct with parts is an object whose only key
    names the construct; several parts stand in an array.  Every reader
    exists for either way to say that nothing goes with a constant; where
    none is named, that is `null`. -/

namespace SequentProver

/-! ## Types and typed names -/

namespace Ty

/-- A type: a constant by its name, any other by its constructor and parts. -/
def toJson : Ty → Json
  | .integer => .str "integer"
  | .boolean => .str "boolean"
  | .given name => .obj [("given", .str name)]
  | .powerSet elem => .obj [("power_set", elem.toJson)]
  | .product left right => .obj [("product", .arr [left.toJson, right.toJson])]

/-- The types that are constants. -/
def ofName? : String → Option Ty
  | "integer" => some .integer
  | "boolean" => some .boolean
  | _ => none

/-- Read a type, with either way to say that nothing goes with a constant. -/
def ofJsonWith? (absence : Json.Absence) : Json → Option Ty
  | .obj [("given", .str name)] => some (.given name)
  | .obj [("power_set", elem)] => (ofJsonWith? absence elem).map .powerSet
  | .obj [("product", .arr [left, right])] =>
    match ofJsonWith? absence left, ofJsonWith? absence right with
    | some l, some r => some (.product l r)
    | _, _ => none
  | j => (j.constant? absence).bind ofName?

/-- Read a type; nothing but `null` may go with a constant. -/
def ofJson? : Json → Option Ty := ofJsonWith? .null

end Ty

namespace TypedName

/-- A name with its type. -/
def toJson (n : TypedName) : Json := .obj [("name", .str n.name), ("ty", n.ty.toJson)]

/-- Read a name with its type. -/
def ofJsonWith? (absence : Json.Absence) (j : Json) : Option TypedName := do
  let fields ← j.record? ["name", "ty"] 2
  let name ← Json.field? fields "name" Json.str?
  let ty ← Json.field? fields "ty" (Ty.ofJsonWith? absence)
  return ⟨name, ty⟩

/-- Read a name; nothing but `null` may go with a constant. -/
def ofJson? : Json → Option TypedName := ofJsonWith? .null

end TypedName

/-! ## Operator names -/

namespace ArithOp

/-- The name of an operation. -/
def toJson : ArithOp → Json
  | .add => .str "add"
  | .sub => .str "sub"
  | .mul => .str "mul"

/-- The operation of a name. -/
def ofName? : String → Option ArithOp
  | "add" => some .add
  | "sub" => some .sub
  | "mul" => some .mul
  | _ => none

/-- Read an operation. -/
def ofJsonWith? (absence : Json.Absence) (j : Json) : Option ArithOp :=
  (j.constant? absence).bind ofName?

/-- Read an operation; nothing but `null` may go with a constant. -/
def ofJson? : Json → Option ArithOp := ofJsonWith? .null

end ArithOp

namespace Connective

/-- The name of a connective. -/
def toJson : Connective → Json
  | .and => .str "and"
  | .or => .str "or"
  | .imp => .str "imp"
  | .iff => .str "iff"

/-- The connective of a name. -/
def ofName? : String → Option Connective
  | "and" => some .and
  | "or" => some .or
  | "imp" => some .imp
  | "iff" => some .iff
  | _ => none

/-- Read a connective. -/
def ofJsonWith? (absence : Json.Absence) (j : Json) : Option Connective :=
  (j.constant? absence).bind ofName?

end Connective

namespace Relation

/-- The name of a relation. -/
def toJson : Relation → Json
  | .eq => .str "eq"
  | .notEq => .str "not_eq"
  | .lt => .str "lt"
  | .le => .str "le"
  | .gt => .str "gt"
  | .ge => .str "ge"

/-- The relation of a name. -/
def ofName? : String → Option Relation
  | "eq" => some .eq
  | "not_eq" => some .notEq
  | "lt" => some .lt
  | "le" => some .le
  | "gt" => some .gt
  | "ge" => some .ge
  | _ => none

/-- Read a relation. -/
def ofJsonWith? (absence : Json.Absence) (j : Json) : Option Relation :=
  (j.constant? absence).bind ofName?

/-- Read a relation; nothing but `null` may go with a constant. -/
def ofJson? : Json → Option Relation := ofJsonWith? .null

end Relation

namespace Quantifier

/-- The name of a quantifier. -/
def toJson : Quantifier → Json
  | .universal => .str "forall"
  | .existential => .str "exists"

/-- The quantifier of a name. -/
def ofName? : String → Option Quantifier
  | "forall" => some .universal
  | "exists" => some .existential
  | _ => none

/-- Read a quantifier. -/
def ofJsonWith? (absence : Json.Absence) (j : Json) : Option Quantifier :=
  (j.constant? absence).bind ofName?

end Quantifier

/-! ## Expressions and predicates -/

/-- A signed 64-bit integer. -/
def Json.int64? (j : Json) : Option Int64 :=
  (j.intBetween? Int64.minValue.toInt Int64.maxValue.toInt).map Int64.ofInt

namespace Expr

/-- An expression by its constructor and parts. -/
def toJson : Expr → Json
  | .ident name => .obj [("ident", .str name)]
  | .integer value => .obj [("integer", .int value.toInt)]
  | .bool value => .obj [("bool", .bool value)]
  | .neg inner => .obj [("neg", inner.toJson)]
  | .arith op left right => .obj [("arith", .arr [op.toJson, left.toJson, right.toJson])]

/-- Read an expression; a literal has to fit into 64 bits. -/
def ofJsonWith? (absence : Json.Absence) : Json → Option Expr
  | .obj [("ident", .str name)] => some (.ident name)
  | .obj [("integer", value)] => value.int64?.map .integer
  | .obj [("bool", .bool value)] => some (.bool value)
  | .obj [("neg", inner)] => (ofJsonWith? absence inner).map .neg
  | .obj [("arith", .arr [op, left, right])] =>
    match ArithOp.ofJsonWith? absence op, ofJsonWith? absence left,
      ofJsonWith? absence right with
    | some o, some l, some r => some (.arith o l r)
    | _, _, _ => none
  | _ => none

/-- Read an expression; nothing but `null` may go with a constant. -/
def ofJson? : Json → Option Expr := ofJsonWith? .null

end Expr

namespace Pred

/-- A predicate by its constructor and parts. -/
def toJson : Pred → Json
  | .top => .str "true"
  | .bottom => .str "false"
  | .not inner => .obj [("not", inner.toJson)]
  | .binary op left right => .obj [("binary", .arr [op.toJson, left.toJson, right.toJson])]
  | .relation op left right => .obj [("relation", .arr [op.toJson, left.toJson, right.toJson])]
  | .quantified quantifier decls body =>
    .obj [("quantified",
      .arr [quantifier.toJson, .arr (decls.map TypedName.toJson), body.toJson])]

/-- The predicates that are constants. -/
def ofName? : String → Option Pred
  | "true" => some .top
  | "false" => some .bottom
  | _ => none

/-- Read a predicate. -/
def ofJsonWith? (absence : Json.Absence) : Json → Option Pred
  | .obj [("not", inner)] => (ofJsonWith? absence inner).map .not
  | .obj [("binary", .arr [op, left, right])] =>
    match Connective.ofJsonWith? absence op, ofJsonWith? absence left,
      ofJsonWith? absence right with
    | some o, some l, some r => some (.binary o l r)
    | _, _, _ => none
  | .obj [("relation", .arr [op, left, right])] =>
    match Relation.ofJsonWith? absence op, Expr.ofJsonWith? absence left,
      Expr.ofJsonWith? absence right with
    | some o, some l, some r => some (.relation o l r)
    | _, _, _ => none
  | .obj [("quantified", .arr [quantifier, decls, body])] =>
    match Quantifier.ofJsonWith? absence quantifier,
      decls.list? (TypedName.ofJsonWith? absence), ofJsonWith? absence body with
    | some q, some ds, some b => some (.quantified q ds b)
    | _, _, _ => none
  | j => (j.constant? absence).bind ofName?

/-- Read a predicate; nothing but `null` may go with a constant. -/
def ofJson? : Json → Option Pred := ofJsonWith? .null

end Pred

/-! ## Environments -/

namespace TypeEnv

/-- An object with the bindings as an object from names to types. -/
def toJson (env : TypeEnv) : Json :=
  .obj [("bindings", .obj (env.bindings.toList.map fun n => (n.name, n.ty.toJson)))]

/-- Read the bindings; names are taken as they are, and of two bindings
    of one name the later counts. -/
def bindingsOfJson? : Json → Option (SortedBy TypedName.name)
  | .obj fields => do
    let typed ← fields.mapM fun f => (Ty.ofJson? f.2).map (⟨f.1, ·⟩)
    return SortedBy.ofList typed
  | _ => none

/-- Read an environment; of two bindings for a name the later one counts. -/
def ofJson? (j : Json) : Option TypeEnv := do
  let fields ← j.record? ["bindings"] 1
  let bindings ← Json.field? fields "bindings" bindingsOfJson?
  return ⟨bindings⟩

end TypeEnv

end SequentProver
