import SequentProver.Order.SortedBy

/-! # JSON values

    The values that forms are written to and read from.  A record is read
    from an object, in which fields it does not know are ignored, or from
    the array of its field values in their order.  A number that is not
    written as an integer is never read as one, so its numeral is kept. -/

namespace SequentProver

/-- JSON values.  A numeral with a fraction or an exponent stays as it is
    written. -/
inductive Json where
  | null
  | bool (value : Bool)
  | int (value : Int)
  | decimal (numeral : String)
  | str (value : String)
  | arr (items : List Json)
  | obj (fields : List (String × Json))
  deriving Inhabited

namespace Json

/-! ## Writing -/

/-- An array of strings. -/
def ofStrings (l : List String) : Json := .arr (l.map .str)

/-- A value that may be missing, for which `null` is written. -/
def ofOption {α : Type} (toJson : α → Json) : Option α → Json
  | none => .null
  | some a => toJson a

/-- An array of values. -/
def ofList {α : Type} (toJson : α → Json) (l : List α) : Json := .arr (l.map toJson)

/-- The elements of a set, in order. -/
def ofSet {α : Type} [Ord α] (toJson : α → Json) (s : SortedSet α) : Json :=
  ofList toJson s.toList

/-! ## Reading -/

/-- The string, if the value is one. -/
def str? : Json → Option String
  | .str s => some s
  | _ => none

/-- The truth value, if the value is one. -/
def bool? : Json → Option Bool
  | .bool b => some b
  | _ => none

/-- An integer between two bounds, both included. -/
def intBetween? (lo hi : Int) : Json → Option Int
  | .int n => if lo ≤ n ∧ n ≤ hi then some n else none
  | _ => none

/-- The items of an array, each read by `ofJson?`. -/
def list? {α : Type} (ofJson? : Json → Option α) : Json → Option (List α)
  | .arr items => items.mapM ofJson?
  | _ => none

/-- The elements of a set, in any order and with repetitions. -/
def set? {α : Type} [Ord α] [Std.TransOrd α] [Std.LawfulEqOrd α] (ofJson? : Json → Option α)
    (j : Json) : Option (SortedSet α) :=
  (j.list? ofJson?).map SortedBy.ofList

/-- `null` or a value. -/
def option? {α : Type} (ofJson? : Json → Option α) : Json → Option (Option α)
  | .null => some none
  | j => (ofJson? j).map some

/-- The fields of a record with the given field names.  An array may leave
    out fields from the end as long as `least` are there. -/
def record? (names : List String) (least : Nat) : Json → Option (List (String × Json))
  | .obj fields => some fields
  | .arr items =>
    if least ≤ items.length ∧ items.length ≤ names.length then some (names.zip items)
    else none
  | _ => none

/-- A field that has to be there. -/
def field? {α : Type} (fields : List (String × Json)) (name : String)
    (ofJson? : Json → Option α) : Option α :=
  (fields.lookup name).bind ofJson?

/-- A field with a value for its absence. -/
def fieldOr? {α : Type} (fields : List (String × Json)) (name : String) (absent : α)
    (ofJson? : Json → Option α) : Option α :=
  match fields.lookup name with
  | none => some absent
  | some j => ofJson? j

/-- A field that may be absent or `null`. -/
def optionalField? {α : Type} (fields : List (String × Json)) (name : String)
    (ofJson? : Json → Option α) : Option (Option α) :=
  fieldOr? fields name none (option? ofJson?)

/-! ## Constants -/

/-- What says that nothing goes with the name of a constant. -/
inductive Absence where
  | null
  | nullOrEmpty
  deriving DecidableEq

/-- Whether a value says so: `null` does, the empty object only where it
    is admitted. -/
def Absence.admits : Absence → Json → Bool
  | _, .null => true
  | .nullOrEmpty, .obj [] => true
  | _, _ => false

/-- The name of a constant: the text itself, or an object with the name
    as its only key and nothing that goes with it. -/
def constant? (absence : Absence) : Json → Option String
  | .str name => some name
  | .obj [(name, value)] => if absence.admits value then some name else none
  | _ => none

end Json

end SequentProver
