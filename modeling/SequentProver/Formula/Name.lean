import SequentProver.Formula.Ty

/-! # Names

    Which texts may name an identifier, and names that carry a type. -/

namespace SequentProver

/-! ## Shape of a name -/

/-- A name starts with a letter of `A`–`Z`, `a`–`z` or an underscore. -/
def isNameStart (c : Char) : Bool := c.isAlpha || c = '_'

/-- After the start, digits and primes may occur too. -/
def isNameChar (c : Char) : Bool := c.isAlphanum || c = '_' || c = '\''

/-- Whether the characters have the shape of a name. -/
def isNameShaped : List Char → Bool
  | [] => false
  | c :: rest => isNameStart c && rest.all isNameChar

/-- The words with a meaning of their own. -/
def reservedWords : List String :=
  ["true", "false", "not", "or", "forall", "exists", "TRUE", "FALSE", "BOOL", "Z", "POW"]

/-- A valid name has the shape of a name and is not a reserved word. -/
def isValidName (name : String) : Bool :=
  isNameShaped name.toList && !reservedWords.contains name

/-! ## Typed names -/

/-- A name with its type: a free identifier, or a declaration of a
    quantifier. -/
structure TypedName where
  name : String
  ty : Ty
  deriving DecidableEq, Inhabited

namespace TypedName

/-- The name with its type, as in a binder. -/
def text (n : TypedName) : String := n.name ++ ": " ++ n.ty.text

/-- Compare by name, then by type. -/
def cmp (a b : TypedName) : Ordering := (compare a.name b.name).then (compare a.ty b.ty)

/-- Names are ordered by spelling first, then by type. -/
theorem totalComparison_cmp : TotalComparison cmp where
  self a := by
    rw [cmp, TotalComparison.of_ord.self, TotalComparison.of_ord.self]
    rfl
  eq_of_eq {a b} h := by
    obtain ⟨hn, ht⟩ := Ordering.then_eq_eq.mp h
    cases a
    cases b
    cases TotalComparison.of_ord.eq_of_eq hn
    cases TotalComparison.of_ord.eq_of_eq ht
    rfl
  swap a b := by
    rw [cmp, cmp, Ordering.swap_then, ← TotalComparison.of_ord.swap,
      ← TotalComparison.of_ord.swap]
  lt_trans {a b c} hab hbc :=
    then_lt_trans TotalComparison.of_ord.eq_of_eq TotalComparison.of_ord.lt_trans
      TotalComparison.of_ord.lt_trans hab hbc

instance : Ord TypedName := ⟨cmp⟩
instance : Std.TransOrd TypedName := totalComparison_cmp.transCmp
instance : Std.LawfulEqOrd TypedName := totalComparison_cmp.lawfulEqCmp

end TypedName

end SequentProver
