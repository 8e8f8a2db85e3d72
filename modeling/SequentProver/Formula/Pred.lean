import SequentProver.Formula.Expr

/-! # Predicates

    The formulas of the logic: connectives, relations between expressions
    and quantifiers over typed names, with their written form, their free
    names, substitution and their order. -/

namespace SequentProver

/-! ## Connectives, relations and quantifiers -/

/-- The connectives that join two predicates. -/
inductive Connective where
  | and
  | or
  | imp
  | iff
  deriving DecidableEq, Inhabited

namespace Connective

/-- The sign as it is printed. -/
def symbol : Connective → String
  | .and => "∧"
  | .or => "∨"
  | .imp => "⇒"
  | .iff => "⇔"

/-- How tightly the connective binds. -/
def precedence : Connective → Nat
  | .iff => 1
  | .imp => 2
  | .or => 3
  | .and => 4

/-- Whether a left operand of the given precedence needs parentheses:
    conjunction and disjunction group to the left. -/
def guardsLeft (op : Connective) (operand : Nat) : Bool :=
  match op with
  | .and | .or => operand < op.precedence
  | .imp | .iff => operand ≤ op.precedence

/-- Whether a right operand of the given precedence needs parentheses:
    implication groups to the right, equivalence not at all. -/
def guardsRight (op : Connective) (operand : Nat) : Bool :=
  match op with
  | .imp => operand < op.precedence
  | .and | .or | .iff => operand ≤ op.precedence

/-- Place in the order of connectives. -/
def rank : Connective → Nat
  | .and => 0
  | .or => 1
  | .imp => 2
  | .iff => 3

/-- Connectives are ordered by their places. -/
theorem totalComparison_rank :
    TotalComparison fun a b : Connective => compare a.rank b.rank :=
  TotalComparison.of_ord.comap fun {a b} h => by
    cases a <;> cases b <;> first | rfl | exact absurd h (by decide)

instance : Ord Connective := ⟨fun a b => compare a.rank b.rank⟩
instance : Std.TransOrd Connective := totalComparison_rank.transCmp
instance : Std.LawfulEqOrd Connective := totalComparison_rank.lawfulEqCmp

end Connective

/-- Relations between two expressions. -/
inductive Relation where
  | eq
  | notEq
  | lt
  | le
  | gt
  | ge
  deriving DecidableEq, Inhabited

namespace Relation

/-- The sign as it is printed. -/
def symbol : Relation → String
  | .eq => "="
  | .notEq => "≠"
  | .lt => "<"
  | .le => "≤"
  | .gt => ">"
  | .ge => "≥"

/-- Whether the relation compares integers only. -/
def isArithmetic : Relation → Bool
  | .eq | .notEq => false
  | _ => true

/-- Place in the order of relations. -/
def rank : Relation → Nat
  | .eq => 0
  | .notEq => 1
  | .lt => 2
  | .le => 3
  | .gt => 4
  | .ge => 5

/-- Relations are ordered by their places. -/
theorem totalComparison_rank :
    TotalComparison fun a b : Relation => compare a.rank b.rank :=
  TotalComparison.of_ord.comap fun {a b} h => by
    cases a <;> cases b <;> first | rfl | exact absurd h (by decide)

instance : Ord Relation := ⟨fun a b => compare a.rank b.rank⟩
instance : Std.TransOrd Relation := totalComparison_rank.transCmp
instance : Std.LawfulEqOrd Relation := totalComparison_rank.lawfulEqCmp

end Relation

/-- The two quantifiers. -/
inductive Quantifier where
  | universal
  | existential
  deriving DecidableEq, Inhabited

namespace Quantifier

/-- The sign as it is printed. -/
def symbol : Quantifier → String
  | .universal => "∀"
  | .existential => "∃"

/-- Place in the order of quantifiers. -/
def rank : Quantifier → Nat
  | .universal => 0
  | .existential => 1

/-- Quantifiers are ordered by their places. -/
theorem totalComparison_rank :
    TotalComparison fun a b : Quantifier => compare a.rank b.rank :=
  TotalComparison.of_ord.comap fun {a b} h => by
    cases a <;> cases b <;> first | rfl | exact absurd h (by decide)

instance : Ord Quantifier := ⟨fun a b => compare a.rank b.rank⟩
instance : Std.TransOrd Quantifier := totalComparison_rank.transCmp
instance : Std.LawfulEqOrd Quantifier := totalComparison_rank.lawfulEqCmp

end Quantifier

/-! ## Predicates -/

/-- Predicates: what sequents suppose and claim. -/
inductive Pred where
  | top
  | bottom
  | not (inner : Pred)
  | binary (op : Connective) (left right : Pred)
  | relation (op : Relation) (left right : Expr)
  | quantified (quantifier : Quantifier) (decls : List TypedName) (body : Pred)
  deriving DecidableEq, Inhabited

namespace Pred

/-- How tightly the outermost construct binds. -/
def precedence : Pred → Nat
  | .quantified _ _ _ => 0
  | .binary op _ _ => op.precedence
  | .not _ => 5
  | _ => 6

/-- The written form. -/
def text : Pred → String
  | .top => "⊤"
  | .bottom => "⊥"
  | .not inner => "¬" ++ Expr.parenthesized (inner.precedence < 5) inner.text
  | .binary op left right =>
    Expr.parenthesized (op.guardsLeft left.precedence) left.text ++ " " ++ op.symbol ++ " " ++
      Expr.parenthesized (op.guardsRight right.precedence) right.text
  | .relation op left right => left.text ++ op.symbol ++ right.text
  | .quantified quantifier decls body =>
    quantifier.symbol ++ Text.joined "," (decls.map fun d => d.name ++ ":" ++ d.ty.text) ++
      "·" ++ body.text

/-- The two sides of an implication. -/
def asImplication : Pred → Option (Pred × Pred)
  | .binary .imp left right => some (left, right)
  | _ => none

/-- The two sides of a conjunction. -/
def asConjunction : Pred → Option (Pred × Pred)
  | .binary .and left right => some (left, right)
  | _ => none

/-! ## Free names -/

/-- The names that occur free, with repetitions. -/
def freeList : Pred → List String
  | .top => []
  | .bottom => []
  | .not inner => inner.freeList
  | .binary _ left right => left.freeList ++ right.freeList
  | .relation _ left right => left.nameList ++ right.nameList
  | .quantified _ decls body =>
    body.freeList.filter fun name => !decls.any fun d => d.name = name

/-- The names that occur free. -/
def freeNames (p : Pred) : SortedSet String := SortedBy.ofList p.freeList

/-- Put `value` in place of every free occurrence of `name`.  There is no
    result when a quantifier would capture a name of `value`. -/
def substitute (p : Pred) (name : String) (value : Expr) : Option Pred :=
  match p with
  | .top => some .top
  | .bottom => some .bottom
  | .not inner => (inner.substitute name value).map .not
  | .binary op left right => do
    let l ← left.substitute name value
    let r ← right.substitute name value
    return .binary op l r
  | .relation op left right =>
    some (.relation op (left.substitute name value) (right.substitute name value))
  | .quantified quantifier decls body =>
    if decls.any (fun d => d.name = name) || !body.freeList.contains name then
      some (.quantified quantifier decls body)
    else if decls.any (fun d => value.nameList.contains d.name) then
      none
    else
      (body.substitute name value).map (.quantified quantifier decls)

/-! ## Order -/

/-- Place of the outermost form in the order of predicates. -/
def rank : Pred → Nat
  | .top => 0
  | .bottom => 1
  | .not _ => 2
  | .binary _ _ _ => 3
  | .relation _ _ _ => 4
  | .quantified _ _ _ => 5

/-- Compare by constructor, then by components from left to right. -/
def cmp : Pred → Pred → Ordering
  | .not a, .not b => cmp a b
  | .binary o a b, .binary p c d => (compare o p).then ((cmp a c).then (cmp b d))
  | .relation o a b, .relation p c d => (compare o p).then ((compare a c).then (compare b d))
  | .quantified q ds a, .quantified r es b =>
    (compare q r).then ((compare ds es).then (cmp a b))
  | a, b => compare a.rank b.rank

/-- Every predicate compares equal to itself. -/
theorem cmp_self (a : Pred) : cmp a a = .eq := by
  induction a with
  | top => rfl
  | bottom => rfl
  | not inner ih => exact ih
  | binary op left right ihl ihr =>
      rw [cmp, TotalComparison.of_ord.self, ihl, ihr]
      rfl
  | relation op left right =>
      rw [cmp, TotalComparison.of_ord.self, TotalComparison.of_ord.self,
        TotalComparison.of_ord.self]
      rfl
  | quantified quantifier decls body ih =>
      rw [cmp, TotalComparison.of_ord.self, TotalComparison.of_ord.self, ih]
      rfl

/-- Predicates that compare equal are equal. -/
theorem eq_of_cmp {a b : Pred} (h : cmp a b = .eq) : a = b := by
  induction a generalizing b with
  | top => cases b <;> simp [cmp, rank] at h ⊢
  | bottom => cases b <;> simp [cmp, rank] at h ⊢
  | not inner ih =>
      cases b <;> simp [cmp, rank] at h ⊢
      exact ih h
  | binary op left right ihl ihr =>
      cases b <;> simp [cmp, rank] at h ⊢
      exact ⟨h.1, ihl h.2.1, ihr h.2.2⟩
  | relation op left right =>
      cases b <;> simp [cmp, rank] at h ⊢
      exact h
  | quantified quantifier decls body ih =>
      cases b <;> simp [cmp, rank] at h ⊢
      exact ⟨h.1, h.2.1, ih h.2.2⟩

/-- Exchanging the arguments turns the comparison round. -/
theorem cmp_swap (a b : Pred) : cmp a b = (cmp b a).swap := by
  induction a generalizing b with
  | top => cases b <;> rfl
  | bottom => cases b <;> rfl
  | not inner ih =>
      cases b with
      | not inner' => exact ih inner'
      | _ => rfl
  -- the parts are compared in turn, and swapping goes through that order
  | binary op left right ihl ihr =>
      cases b with
      | binary op' left' right' =>
          rw [cmp, cmp, Ordering.swap_then, Ordering.swap_then, ← ihl, ← ihr,
            ← TotalComparison.of_ord.swap]
      | _ => rfl
  | relation op left right =>
      cases b with
      | relation op' left' right' =>
          rw [cmp, cmp, Ordering.swap_then, Ordering.swap_then,
            ← TotalComparison.of_ord.swap, ← TotalComparison.of_ord.swap,
            ← TotalComparison.of_ord.swap]
      | _ => rfl
  | quantified quantifier decls body ih =>
      cases b with
      | quantified quantifier' decls' body' =>
          rw [cmp, cmp, Ordering.swap_then, Ordering.swap_then, ← ih,
            ← TotalComparison.of_ord.swap, ← TotalComparison.of_ord.swap]
      | _ => rfl

/-- The comparison is transitive, by induction on the one in the middle. -/
theorem cmp_lt_trans {a b c : Pred} (hab : cmp a b = .lt) (hbc : cmp b c = .lt) :
    cmp a c = .lt := by
  induction a generalizing b c with
  | top => cases b <;> cases c <;> simp [cmp, rank, Nat.compare_eq_lt] at hab hbc ⊢
  | bottom => cases b <;> cases c <;> simp [cmp, rank, Nat.compare_eq_lt] at hab hbc ⊢
  | not inner ih =>
      cases b <;> cases c <;> simp [cmp, rank, Nat.compare_eq_lt] at hab hbc ⊢
      exact ih hab hbc
  | binary op left right ihl ihr =>
      -- if two of the three differ in kind, ranks are compared, and those are numbers
      cases b with
      | binary op' left' right' =>
          cases c with
          | binary op'' left'' right'' =>
              exact then_lt_trans TotalComparison.of_ord.eq_of_eq
                TotalComparison.of_ord.lt_trans (then_lt_trans eq_of_cmp ihl ihr) hab hbc
          | _ => simp [cmp, rank, Nat.compare_eq_lt] at hbc ⊢
      | _ => simp [cmp, rank, Nat.compare_eq_lt] at hab <;>
          cases c <;> simp [cmp, rank, Nat.compare_eq_lt] at hbc ⊢
  | relation op left right =>
      cases b with
      | relation op' left' right' =>
          cases c with
          | relation op'' left'' right'' =>
              exact then_lt_trans TotalComparison.of_ord.eq_of_eq
                TotalComparison.of_ord.lt_trans
                (then_lt_trans TotalComparison.of_ord.eq_of_eq
                  TotalComparison.of_ord.lt_trans TotalComparison.of_ord.lt_trans) hab hbc
          | _ => simp [cmp, rank, Nat.compare_eq_lt] at hbc ⊢
      | _ => simp [cmp, rank, Nat.compare_eq_lt] at hab <;>
          cases c <;> simp [cmp, rank, Nat.compare_eq_lt] at hbc ⊢
  | quantified quantifier decls body ih =>
      cases b with
      | quantified quantifier' decls' body' =>
          cases c with
          | quantified quantifier'' decls'' body'' =>
              exact then_lt_trans TotalComparison.of_ord.eq_of_eq
                TotalComparison.of_ord.lt_trans
                (then_lt_trans TotalComparison.of_ord.eq_of_eq
                  TotalComparison.of_ord.lt_trans ih) hab hbc
          | _ => simp [cmp, rank, Nat.compare_eq_lt] at hbc
      | _ => simp [cmp, rank, Nat.compare_eq_lt] at hab

/-- The comparison orders predicates totally. -/
theorem totalComparison_cmp : TotalComparison cmp :=
  ⟨cmp_self, eq_of_cmp, cmp_swap, cmp_lt_trans⟩

instance : Ord Pred := ⟨cmp⟩
instance : Std.TransOrd Pred := totalComparison_cmp.transCmp
instance : Std.LawfulEqOrd Pred := totalComparison_cmp.lawfulEqCmp

end Pred

end SequentProver
