import SequentProver.Formula.Name
import SequentProver.Order.SortedBy

/-! # Expressions

    Integer and truth-value expressions: their written form, their names,
    substitution and their order. -/

namespace SequentProver

/-! ## Arithmetic operators -/

/-- Operations on integers. -/
inductive ArithOp where
  | add
  | sub
  | mul
  deriving DecidableEq, Inhabited

namespace ArithOp

/-- The sign as it is printed. -/
def symbol : ArithOp → String
  | .add => "+"
  | .sub => "−"
  | .mul => "∗"

/-- How tightly the operator binds. -/
def precedence : ArithOp → Nat
  | .add => 1
  | .sub => 1
  | .mul => 2

/-- Place in the order of operations. -/
def rank : ArithOp → Nat
  | .add => 0
  | .sub => 1
  | .mul => 2

/-- Operations are ordered by their places. -/
theorem totalComparison_rank :
    TotalComparison fun a b : ArithOp => compare a.rank b.rank :=
  TotalComparison.of_ord.comap fun {a b} h => by
    cases a <;> cases b <;> first | rfl | exact absurd h (by decide)

instance : Ord ArithOp := ⟨fun a b => compare a.rank b.rank⟩
instance : Std.TransOrd ArithOp := totalComparison_rank.transCmp
instance : Std.LawfulEqOrd ArithOp := totalComparison_rank.lawfulEqCmp

end ArithOp

/-! ## Expressions -/

/-- An expression.  Integer literals are signed 64-bit words. -/
inductive Expr where
  | ident (name : String)
  | integer (value : Int64)
  | bool (value : Bool)
  | neg (inner : Expr)
  | arith (op : ArithOp) (left right : Expr)
  deriving DecidableEq, Inhabited

namespace Expr

/-- How tightly the outermost construct binds. -/
def precedence : Expr → Nat
  | .arith op _ _ => op.precedence
  | .neg _ => 3
  | _ => 4

/-- Whether it is a literal. -/
def isInteger : Expr → Bool
  | .integer _ => true
  | _ => false

/-- Text in parentheses when the condition holds. -/
def parenthesized (needed : Bool) (text : String) : String :=
  if needed then "(" ++ text ++ ")" else text

/-- The written form.  The operand of a minus sign is parenthesized when
    it binds less tightly, and when it is a literal, since a minus sign
    directly before a literal is part of the literal. -/
def text : Expr → String
  | .ident name => name
  | .integer value => Text.decimal value.toInt
  | .bool value => if value then "TRUE" else "FALSE"
  | .neg inner => "−" ++ parenthesized (inner.precedence < 3 || inner.isInteger) inner.text
  | .arith op left right =>
    parenthesized (left.precedence < op.precedence) left.text ++ op.symbol ++
      parenthesized (right.precedence ≤ op.precedence) right.text

/-- The names an expression mentions, with repetitions. -/
def nameList : Expr → List String
  | .ident name => [name]
  | .integer _ => []
  | .bool _ => []
  | .neg inner => inner.nameList
  | .arith _ left right => left.nameList ++ right.nameList

/-- The names an expression mentions. -/
def names (e : Expr) : SortedSet String := SortedBy.ofList e.nameList

/-- Put `value` in place of every occurrence of `name`. -/
def substitute (e : Expr) (name : String) (value : Expr) : Expr :=
  match e with
  | .ident n => if n = name then value else .ident n
  | .integer n => .integer n
  | .bool b => .bool b
  | .neg inner => .neg (inner.substitute name value)
  | .arith op left right =>
    .arith op (left.substitute name value) (right.substitute name value)

/-! ## Order -/

/-- Place of the outermost form in the order of expressions. -/
def rank : Expr → Nat
  | .ident _ => 0
  | .integer _ => 1
  | .bool _ => 2
  | .neg _ => 3
  | .arith _ _ _ => 4

/-- Compare by constructor, then by components from left to right. -/
def cmp : Expr → Expr → Ordering
  | .ident a, .ident b => compare a b
  | .integer a, .integer b => compare a b
  | .bool a, .bool b => compare a b
  | .neg a, .neg b => cmp a b
  | .arith o a b, .arith p c d => (compare o p).then ((cmp a c).then (cmp b d))
  | a, b => compare a.rank b.rank

/-- Every expression compares equal to itself. -/
theorem cmp_self (a : Expr) : cmp a a = .eq := by
  induction a with
  | ident name => exact TotalComparison.of_ord.self name
  | integer value => exact TotalComparison.of_ord.self value
  | bool value => exact TotalComparison.of_ord.self value
  | neg inner ih => exact ih
  | arith op left right ihl ihr =>
      rw [cmp, TotalComparison.of_ord.self, ihl, ihr]
      rfl

/-- Expressions that compare equal are equal. -/
theorem eq_of_cmp {a b : Expr} (h : cmp a b = .eq) : a = b := by
  induction a generalizing b with
  | ident name =>
      cases b <;> simp [cmp, rank] at h ⊢
      exact h
  | integer value =>
      cases b <;> simp [cmp, rank] at h ⊢
      exact h
  | bool value =>
      cases b <;> simp [cmp, rank] at h ⊢
      exact h
  | neg inner ih =>
      cases b <;> simp [cmp, rank] at h ⊢
      exact ih h
  | arith op left right ihl ihr =>
      cases b <;> simp [cmp, rank] at h ⊢
      exact ⟨h.1, ihl h.2.1, ihr h.2.2⟩

/-- Exchanging the arguments turns the comparison round. -/
theorem cmp_swap (a b : Expr) : cmp a b = (cmp b a).swap := by
  induction a generalizing b with
  | ident name =>
      cases b with
      | ident name' => exact TotalComparison.of_ord.swap name name'
      | _ => rfl
  | integer value =>
      cases b with
      | integer value' => exact TotalComparison.of_ord.swap value value'
      | _ => rfl
  | bool value =>
      cases b with
      | bool value' => exact TotalComparison.of_ord.swap value value'
      | _ => rfl
  | neg inner ih =>
      cases b with
      | neg inner' => exact ih inner'
      | _ => rfl
  | arith op left right ihl ihr =>
      cases b with
      | arith op' left' right' =>
          rw [cmp, cmp, Ordering.swap_then, Ordering.swap_then, ← ihl, ← ihr,
            ← TotalComparison.of_ord.swap]
      | _ => rfl

/-- The comparison is transitive: the first part that differs decides. -/
theorem cmp_lt_trans {a b c : Expr} (hab : cmp a b = .lt) (hbc : cmp b c = .lt) :
    cmp a c = .lt := by
  induction a generalizing b c with
  | ident name =>
      cases b <;> cases c <;> simp [cmp, rank, Nat.compare_eq_lt] at hab hbc ⊢
      exact TotalComparison.of_ord.lt_trans hab hbc
  | integer value =>
      cases b <;> cases c <;> simp [cmp, rank, Nat.compare_eq_lt] at hab hbc ⊢
      exact TotalComparison.of_ord.lt_trans hab hbc
  | bool value =>
      cases b <;> cases c <;> simp [cmp, rank, Nat.compare_eq_lt] at hab hbc ⊢
      exact TotalComparison.of_ord.lt_trans hab hbc
  | neg inner ih =>
      cases b <;> cases c <;> simp [cmp, rank, Nat.compare_eq_lt] at hab hbc ⊢
      exact ih hab hbc
  | arith op left right ihl ihr =>
      -- if two of the three differ in kind, ranks are compared, and those are numbers
      cases b with
      | arith op' left' right' =>
          cases c with
          | arith op'' left'' right'' =>
              exact then_lt_trans TotalComparison.of_ord.eq_of_eq
                TotalComparison.of_ord.lt_trans (then_lt_trans eq_of_cmp ihl ihr) hab hbc
          | _ => simp [cmp, rank, Nat.compare_eq_lt] at hbc
      | _ => simp [cmp, rank, Nat.compare_eq_lt] at hab

/-- The comparison orders expressions totally. -/
theorem totalComparison_cmp : TotalComparison cmp :=
  ⟨cmp_self, eq_of_cmp, cmp_swap, cmp_lt_trans⟩

instance : Ord Expr := ⟨cmp⟩
instance : Std.TransOrd Expr := totalComparison_cmp.transCmp
instance : Std.LawfulEqOrd Expr := totalComparison_cmp.lawfulEqCmp

end Expr

end SequentProver
