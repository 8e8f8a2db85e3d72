import SequentProver.Formula.Error
import SequentProver.Formula.Pred

/-! # Type environments and closed typing

    An environment binds names to types.  Typing is closed: it only looks
    names up, and a free name without a binding is an error.  Quantifiers
    shadow from the inside out. -/

namespace SequentProver

/-- A name that is fit to be an identifier, with its type. -/
def TypedName.make (name : String) (ty : Ty) : Except FormulaError TypedName :=
  if isValidName name then .ok ⟨name, ty⟩ else .error (.invalidName name)

/-! ## Environments -/

/-- A finite table from names to types, in the order of the names. -/
structure TypeEnv where
  bindings : SortedBy TypedName.name
  deriving DecidableEq, Inhabited

namespace TypeEnv

/-- The environment that binds nothing. -/
def empty : TypeEnv := ⟨∅⟩

/-- Number of names bound. -/
def size (env : TypeEnv) : Nat := env.bindings.size

/-- The type bound to `name`. -/
def typeOf? (env : TypeEnv) (name : String) : Option Ty :=
  (env.bindings.find? name).map TypedName.ty

/-- Whether `name` is bound, to whatever type. -/
def binds (env : TypeEnv) (name : String) : Bool := (env.typeOf? name).isSome

/-- Whether the name is bound with exactly its type. -/
def bindsAs (env : TypeEnv) (n : TypedName) : Bool := env.typeOf? n.name = some n.ty

/-- All bound names, in order. -/
def names (env : TypeEnv) : List String := env.bindings.toList.map TypedName.name

/-- The bindings whose names are valid, in the order of the names. -/
def idents (env : TypeEnv) : List TypedName :=
  env.bindings.toList.filter fun n => isValidName n.name

/-- Bind one name.  There is no renaming: a bound name is a clash. -/
def bind (env : TypeEnv) (n : TypedName) : Except FormulaError TypeEnv :=
  if env.binds n.name then .error (.nameClash n.name) else .ok ⟨env.bindings.insert n⟩

/-- Bind names one after another; a name given twice is a clash too. -/
def extend (env : TypeEnv) : List TypedName → Except FormulaError TypeEnv
  | [] => .ok env
  | n :: rest =>
    match env.bind n with
    | .error e => .error e
    | .ok env' => env'.extend rest

/-- Bind a name after checking that it is fit to be an identifier. -/
def bindChecked (env : TypeEnv) (name : String) (ty : Ty) : Except FormulaError TypeEnv :=
  match TypedName.make name ty with
  | .error e => .error e
  | .ok n => env.bind n

/-- The bound, validly named free names of `p`, with their types. -/
def freeIdents (env : TypeEnv) (p : Pred) : SortedSet TypedName :=
  SortedBy.ofList (p.freeNames.toList.filterMap fun name =>
    if isValidName name then (env.typeOf? name).map (⟨name, ·⟩) else none)

/-! ## Typing -/

/-- The type of a name: the innermost binder wins over the environment.
    `scope` lists the binders in force, innermost first. -/
def typeInScope? (env : TypeEnv) (scope : List TypedName) (name : String) : Option Ty :=
  match scope.find? fun d => d.name = name with
  | some d => some d.ty
  | none => env.typeOf? name

/-- Refuse an operand of the wrong type. -/
def require (construct : Construct) (expected actual : Ty) : Except FormulaError Unit :=
  if expected = actual then .ok () else .error (.typeMismatch construct expected actual)

/-- The type of an expression. -/
def infer (env : TypeEnv) (scope : List TypedName) : Expr → Except FormulaError Ty
  | .ident name =>
    match env.typeInScope? scope name with
    | some ty => .ok ty
    | none => .error (.unboundName name)
  | .integer _ => .ok .integer
  | .bool _ => .ok .boolean
  | .neg inner => do
    let ty ← env.infer scope inner
    require .negation .integer ty
    return .integer
  | .arith _ left right => do
    let l ← env.infer scope left
    require .arithmetic .integer l
    let r ← env.infer scope right
    require .arithmetic .integer r
    return .integer

/-- The declarations of a quantifier need valid names, each only once;
    `seen` lists the names declared before. -/
def checkDeclarations (seen : List String) : List TypedName → Except FormulaError Unit
  | [] => .ok ()
  | d :: rest =>
    if !isValidName d.name then .error (.invalidName d.name)
    else if seen.contains d.name then .error (.duplicateBinder d.name)
    else checkDeclarations (d.name :: seen) rest

/-- Type-check a predicate under the binders of `scope`. -/
def checkIn (env : TypeEnv) (scope : List TypedName) : Pred → Except FormulaError Unit
  | .top => .ok ()
  | .bottom => .ok ()
  | .not inner => env.checkIn scope inner
  | .binary _ left right => do
    env.checkIn scope left
    env.checkIn scope right
  | .relation op left right => do
    let l ← env.infer scope left
    let r ← env.infer scope right
    if op.isArithmetic then
      require .relation .integer l
      require .relation .integer r
    else
      require .equality l r
  | .quantified _ decls body => do
    checkDeclarations [] decls
    env.checkIn (decls.reverse ++ scope) body

/-- Type-check a predicate whose free names all have to be bound. -/
def checkClosed (env : TypeEnv) (p : Pred) : Except FormulaError Unit := env.checkIn [] p

/-- Whether a predicate type-checks closed. -/
def accepts (env : TypeEnv) (p : Pred) : Bool :=
  match env.checkClosed p with
  | .ok _ => true
  | .error _ => false

end TypeEnv

end SequentProver
