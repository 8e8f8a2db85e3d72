import SequentProver.Formula.Pred
import SequentProver.Text.Quoted

/-! # Outlines

    The fully bracketed form in which a message shows a formula: every
    construct by its name, with its parts in parentheses. -/

namespace SequentProver

/-- A construct with its parts. -/
def outlineOf (construct : String) (parts : List String) : String :=
  construct ++ "(" ++ Text.joined ", " parts ++ ")"

/-- A list of outlines. -/
def outlineList (parts : List String) : String := "[" ++ Text.joined ", " parts ++ "]"

/-- A type by its constructors. -/
def Ty.outline : Ty → String
  | .integer => "Integer"
  | .boolean => "Boolean"
  | .given name => outlineOf "Given" [Text.quoted name]
  | .powerSet elem => outlineOf "PowerSet" [elem.outline]
  | .product left right => outlineOf "Product" [left.outline, right.outline]

/-- The constructor of an operation. -/
def ArithOp.outline : ArithOp → String
  | .add => "Add"
  | .sub => "Sub"
  | .mul => "Mul"

/-- An expression by its constructors. -/
def Expr.outline : Expr → String
  | .ident name => outlineOf "Ident" [Text.quoted name]
  | .integer value => outlineOf "Integer" [Text.decimal value.toInt]
  | .bool value => outlineOf "Bool" [if value then "true" else "false"]
  | .neg inner => outlineOf "Neg" [inner.outline]
  | .arith op left right => outlineOf "Arith" [op.outline, left.outline, right.outline]

/-- The constructor of a connective. -/
def Connective.outline : Connective → String
  | .and => "And"
  | .or => "Or"
  | .imp => "Imp"
  | .iff => "Iff"

/-- The constructor of a relation. -/
def Relation.outline : Relation → String
  | .eq => "Eq"
  | .notEq => "NotEq"
  | .lt => "Lt"
  | .le => "Le"
  | .gt => "Gt"
  | .ge => "Ge"

/-- The constructor of a quantifier. -/
def Quantifier.outline : Quantifier → String
  | .universal => "Forall"
  | .existential => "Exists"

/-- The outline of a declaration of a quantifier. -/
def TypedName.outline (d : TypedName) : String :=
  "BoundDecl \x7b name: " ++ Text.quoted d.name ++ ", ty: " ++ d.ty.outline ++ " \x7d"

/-- A predicate by its constructors. -/
def Pred.outline : Pred → String
  | .top => "True"
  | .bottom => "False"
  | .not inner => outlineOf "Not" [inner.outline]
  | .binary op left right => outlineOf "Binary" [op.outline, left.outline, right.outline]
  | .relation op left right => outlineOf "Relation" [op.outline, left.outline, right.outline]
  | .quantified quantifier decls body =>
    outlineOf "Quantified"
      [quantifier.outline, outlineList (decls.map TypedName.outline), body.outline]

end SequentProver
