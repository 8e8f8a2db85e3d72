import SequentProver.Order.Comparison
import SequentProver.Text.Decimal

/-! # Types

    The types of the logic: integers, truth values, given sets, and the
    power sets and products made from them, with their written form and
    their order. -/

namespace SequentProver

/-- A type of the logic. -/
inductive Ty where
  | integer
  | boolean
  | given (name : String)
  | powerSet (elem : Ty)
  | product (left right : Ty)
  deriving DecidableEq, Inhabited

namespace Ty

/-- Whether it is a product, which has to be put in parentheses on the left. -/
def isProduct : Ty → Bool
  | .product _ _ => true
  | _ => false

/-- The written form.  A product groups to the right, so only a product
    on its left side needs parentheses. -/
def text : Ty → String
  | .integer => "ℤ"
  | .boolean => "BOOL"
  | .given name => name
  | .powerSet elem => "ℙ(" ++ elem.text ++ ")"
  | .product left right =>
    (if left.isProduct then "(" ++ left.text ++ ")" else left.text) ++ "×" ++ right.text

/-! ## Order -/

/-- Position of the constructor in the order of types. -/
def rank : Ty → Nat
  | .integer => 0
  | .boolean => 1
  | .given _ => 2
  | .powerSet _ => 3
  | .product _ _ => 4

/-- Compare by constructor, then by components from left to right. -/
def cmp : Ty → Ty → Ordering
  | .given a, .given b => compare a b
  | .powerSet a, .powerSet b => cmp a b
  | .product a b, .product c d => (cmp a c).then (cmp b d)
  | a, b => compare a.rank b.rank

/-- Every type compares equal to itself. -/
theorem cmp_self (a : Ty) : cmp a a = .eq := by
  induction a with
  | integer => rfl
  | boolean => rfl
  | given name => exact TotalComparison.of_ord.self name
  | powerSet elem ih => exact ih
  | product left right ihl ihr => simp [cmp, ihl, ihr]

/-- Types that compare equal are equal. -/
theorem eq_of_cmp {a b : Ty} (h : cmp a b = .eq) : a = b := by
  induction a generalizing b with
  | integer => cases b <;> simp [cmp, rank] at h ⊢
  | boolean => cases b <;> simp [cmp, rank] at h ⊢
  | given name =>
      cases b <;> simp [cmp, rank] at h ⊢
      exact h
  | powerSet elem ih =>
      cases b <;> simp [cmp, rank] at h ⊢
      exact ih h
  | product left right ihl ihr =>
      cases b <;> simp [cmp, rank] at h ⊢
      exact ⟨ihl h.1, ihr h.2⟩

/-- Exchanging the arguments turns the comparison round. -/
theorem cmp_swap (a b : Ty) : cmp a b = (cmp b a).swap := by
  induction a generalizing b with
  | integer => cases b <;> rfl
  | boolean => cases b <;> rfl
  | given name =>
      cases b with
      | given name' => exact TotalComparison.of_ord.swap name name'
      | _ => rfl
  | powerSet elem ih =>
      cases b with
      | powerSet elem' => exact ih elem'
      | _ => rfl
  | product left right ihl ihr =>
      cases b with
      | product left' right' =>
          simp only [cmp, Ordering.swap_then]
          rw [ihl left', ihr right']
      | _ => rfl

/-- The comparison is transitive: the first part that differs decides. -/
theorem cmp_lt_trans {a b c : Ty} (hab : cmp a b = .lt) (hbc : cmp b c = .lt) :
    cmp a c = .lt := by
  induction a generalizing b c with
  | integer => cases b <;> cases c <;> simp [cmp, rank, Nat.compare_eq_lt] at hab hbc ⊢
  | boolean => cases b <;> cases c <;> simp [cmp, rank, Nat.compare_eq_lt] at hab hbc ⊢
  | given name =>
      cases b <;> cases c <;> simp [cmp, rank, Nat.compare_eq_lt] at hab hbc ⊢
      exact Std.TransCmp.lt_trans hab hbc
  | powerSet elem ih =>
      cases b <;> cases c <;> simp [cmp, rank, Nat.compare_eq_lt] at hab hbc ⊢
      exact ih hab hbc
  | product left right ihl ihr =>
      cases b with
      | product left' right' =>
          cases c with
          | product left'' right'' => exact then_lt_trans eq_of_cmp ihl ihr hab hbc
          | _ => simp [cmp, rank, Nat.compare_eq_lt] at hbc
      | _ => simp [cmp, rank, Nat.compare_eq_lt] at hab

/-- The comparison orders types totally. -/
theorem totalComparison_cmp : TotalComparison cmp :=
  ⟨cmp_self, eq_of_cmp, cmp_swap, cmp_lt_trans⟩

instance : Ord Ty := ⟨cmp⟩
instance : Std.TransOrd Ty := totalComparison_cmp.transCmp
instance : Std.LawfulEqOrd Ty := totalComparison_cmp.lawfulEqCmp

end Ty
end SequentProver
