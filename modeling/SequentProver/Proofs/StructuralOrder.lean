import SequentProver.Formula.Pred

/-! # The order of formulas

    Formulas are compared by their outermost construct, in the order in
    which the constructs are declared, and then by their fields from left to
    right.  `Before` says this without a comparison: one rule for different
    constructs, and for each field one rule that lets it decide when the
    fields to its left are the same.  Names go by the code points of their
    characters, declarations of a quantifier as a list.

    Route:
    1. the fields that are no formulas: names, literals, symbols, lists;
    2. `Before` for types, typed names, expressions and predicates, and that
       the comparison answers "less" exactly where it holds;
    3. `Orders`, what it is for a comparison to be a total order. -/

namespace SequentProver

/-! ## Fields -/

/-- The first code point that differs decides; otherwise the shorter name
    comes first. -/
def NameBefore (a b : String) : Prop :=
  List.Lex (fun c d : Char => c.toNat < d.toNat) a.toList b.toList

/-- Names are compared by the first code point that differs. -/
theorem compare_name_lt {a b : String} : compare a b = .lt ↔ NameBefore a b :=
  compareOfLessAndEq_eq_lt

/-- Literals go by their value. -/
theorem compare_literal_lt {a b : Int64} : compare a b = .lt ↔ a.toInt < b.toInt := by
  rw [← Int64.lt_iff_toInt_lt]
  exact compareOfLessAndEq_eq_lt

/-- Operations are compared by their place in the declaration. -/
theorem ArithOp.compare_lt {a b : ArithOp} : compare a b = .lt ↔ a.ctorIdx < b.ctorIdx := by
  rw [← Nat.compare_eq_lt]
  cases a <;> cases b <;> rfl

theorem Connective.compare_lt {a b : Connective} :
    compare a b = .lt ↔ a.ctorIdx < b.ctorIdx := by
  rw [← Nat.compare_eq_lt]
  cases a <;> cases b <;> rfl

theorem Relation.compare_lt {a b : Relation} : compare a b = .lt ↔ a.ctorIdx < b.ctorIdx := by
  rw [← Nat.compare_eq_lt]
  cases a <;> cases b <;> rfl

theorem Quantifier.compare_lt {a b : Quantifier} :
    compare a b = .lt ↔ a.ctorIdx < b.ctorIdx := by
  rw [← Nat.compare_eq_lt]
  cases a <;> cases b <;> rfl

section Fields

variable {α β : Type} [Ord α] [Std.LawfulEqOrd α] [Ord β] [Std.LawfulEqOrd β]

/-- The first field decides, or it is the same and the rest decides. -/
theorem then_lt_iff {a b : α} {rest : Ordering} :
    (compare a b).then rest = .lt ↔ compare a b = .lt ∨ a = b ∧ rest = .lt := by
  rw [Ordering.then_eq_lt, Std.LawfulEqCmp.compare_eq_iff_eq]

/-- The first of three parts that differs decides. -/
theorem then_then_lt_iff {a b : α} {c d : β} {rest : Ordering} :
    (compare a b).then ((compare c d).then rest) = .lt ↔
      compare a b = .lt ∨ a = b ∧ (compare c d = .lt ∨ c = d ∧ rest = .lt) := by
  rw [then_lt_iff, then_lt_iff]

/-- Lists are compared lexicographically. -/
theorem compare_list_lt {before : α → α → Prop}
    (hbefore : ∀ a b : α, compare a b = .lt ↔ before a b) {l m : List α} :
    compare l m = .lt ↔ List.Lex before l m := by
  induction l generalizing m with
  | nil =>
      cases m with
      | nil => simp
      | cons b m => exact ⟨fun _ => .nil, fun _ => rfl⟩
  | cons a l ih =>
      cases m with
      | nil => simp
      | cons b m =>
          rw [List.compare_cons_cons, then_lt_iff, hbefore, ih, List.cons_lex_cons_iff]

end Fields

/-! ## Types -/

namespace Ty

/-- `Before a b`: `a` comes before `b` in the order of types. -/
inductive Before : Ty → Ty → Prop
  | variant {a b : Ty} (h : a.ctorIdx < b.ctorIdx) : Before a b
  | given {a b : String} (h : NameBefore a b) : Before (.given a) (.given b)
  | powerSet {a b : Ty} (h : Before a b) : Before (.powerSet a) (.powerSet b)
  | left {a b : Ty} (c d : Ty) (h : Before a b) : Before (.product a c) (.product b d)
  | right (a : Ty) {c d : Ty} (h : Before c d) : Before (.product a c) (.product a d)

/-- Different constructs are compared by their positions. -/
theorem compare_of_variant {a b : Ty} (h : a.ctorIdx ≠ b.ctorIdx) :
    compare a b = compare a.ctorIdx b.ctorIdx := by
  cases a <;> cases b <;> first | rfl | exact absurd rfl h

/-- Products are compared by their left sides first. -/
theorem product_lt {a b c d : Ty} : compare (product a c) (product b d) = .lt ↔
    compare a b = .lt ∨ a = b ∧ compare c d = .lt := by
  show (compare a b).then (compare c d) = .lt ↔ _
  exact then_lt_iff

/-- What compares as less comes before, by recursion on both types. -/
theorem before_of_compare {a b : Ty} (h : compare a b = .lt) : Before a b := by
  -- where the constructs differ, the comparison is one of their positions
  induction a generalizing b with
  | integer => cases b <;> exact .variant (Nat.compare_eq_lt.mp h)
  | boolean => cases b <;> exact .variant (Nat.compare_eq_lt.mp h)
  | given name =>
      cases b with
      | given name' => exact .given (compare_name_lt.mp h)
      | _ => exact .variant (Nat.compare_eq_lt.mp h)
  | powerSet elem ih =>
      cases b with
      | powerSet elem' => exact .powerSet (ih h)
      | _ => exact .variant (Nat.compare_eq_lt.mp h)
  | product left right ihl ihr =>
      cases b with
      | product left' right' =>
          rcases product_lt.mp h with hl | ⟨rfl, hr⟩
          · exact .left _ _ (ihl hl)
          · exact .right _ (ihr hr)
      | _ => exact .variant (Nat.compare_eq_lt.mp h)

theorem compare_of_before {a b : Ty} (h : Before a b) : compare a b = .lt := by
  induction h with
  | variant h =>
      rw [compare_of_variant (Nat.ne_of_lt h)]
      exact Nat.compare_eq_lt.mpr h
  | given h => exact compare_name_lt.mpr h
  | powerSet _ ih => exact ih
  | left c d _ ih => exact product_lt.mpr (.inl ih)
  | right a _ ih => exact product_lt.mpr (.inr ⟨rfl, ih⟩)

/-- The comparison of types is the order of types. -/
theorem compare_lt (a b : Ty) : compare a b = .lt ↔ Before a b :=
  ⟨before_of_compare, compare_of_before⟩

end Ty

/-! ## Typed names -/

namespace TypedName

/-- The name decides, then the type. -/
inductive Before : TypedName → TypedName → Prop
  | name {a b : String} (t u : Ty) (h : NameBefore a b) : Before ⟨a, t⟩ ⟨b, u⟩
  | ty (a : String) {t u : Ty} (h : t.Before u) : Before ⟨a, t⟩ ⟨a, u⟩

/-- The comparison of names is the order of names. -/
theorem compare_lt (a b : TypedName) : compare a b = .lt ↔ Before a b := by
  show (compare a.name b.name).then (compare a.ty b.ty) = .lt ↔ _
  rw [then_lt_iff, compare_name_lt, Ty.compare_lt]
  obtain ⟨name, ty⟩ := a
  obtain ⟨name', ty'⟩ := b
  constructor
  · rintro (hname | ⟨hname, hty⟩)
    · exact .name _ _ hname
    · cases hname
      exact .ty _ hty
  · intro h
    cases h with
    | name _ _ hname => exact .inl hname
    | ty _ hty => exact .inr ⟨rfl, hty⟩

end TypedName

/-! ## Expressions -/

namespace Expr

/-- An operator decides before its operands; `FALSE` comes before `TRUE`. -/
inductive Before : Expr → Expr → Prop
  | variant {a b : Expr} (h : a.ctorIdx < b.ctorIdx) : Before a b
  | ident {a b : String} (h : NameBefore a b) : Before (.ident a) (.ident b)
  | integer {a b : Int64} (h : a.toInt < b.toInt) : Before (.integer a) (.integer b)
  | bool : Before (.bool false) (.bool true)
  | neg {a b : Expr} (h : Before a b) : Before (.neg a) (.neg b)
  | operator {o p : ArithOp} (a b c d : Expr) (h : o.ctorIdx < p.ctorIdx) :
      Before (.arith o a c) (.arith p b d)
  | left (o : ArithOp) {a b : Expr} (c d : Expr) (h : Before a b) :
      Before (.arith o a c) (.arith o b d)
  | right (o : ArithOp) (a : Expr) {c d : Expr} (h : Before c d) :
      Before (.arith o a c) (.arith o a d)

/-- Expressions of different forms are compared by their forms. -/
theorem compare_of_variant {a b : Expr} (h : a.ctorIdx ≠ b.ctorIdx) :
    compare a b = compare a.ctorIdx b.ctorIdx := by
  cases a <;> cases b <;> first | rfl | exact absurd rfl h

/-- The operation decides, then the left side, then the right one. -/
theorem arith_lt {o p : ArithOp} {a b c d : Expr} :
    compare (arith o a c) (arith p b d) = .lt ↔
      compare o p = .lt ∨ o = p ∧ (compare a b = .lt ∨ a = b ∧ compare c d = .lt) := by
  show (compare o p).then ((compare a b).then (compare c d)) = .lt ↔ _
  exact then_then_lt_iff

/-- What compares as less comes before, by recursion on both expressions. -/
theorem before_of_compare {a b : Expr} (h : compare a b = .lt) : Before a b := by
  induction a generalizing b with
  -- with two constructors the ranks decide, with one the parts in turn
  | ident name =>
      cases b with
      | ident name' => exact .ident (compare_name_lt.mp h)
      | _ => exact .variant (Nat.compare_eq_lt.mp h)
  | integer value =>
      cases b with
      | integer value' => exact .integer (compare_literal_lt.mp h)
      | _ => exact .variant (Nat.compare_eq_lt.mp h)
  | bool value =>
      cases b with
      | bool value' =>
          cases value <;> cases value' <;> first | exact .bool | cases h
      | _ => exact .variant (Nat.compare_eq_lt.mp h)
  | neg inner ih =>
      cases b with
      | neg inner' => exact .neg (ih h)
      | _ => exact .variant (Nat.compare_eq_lt.mp h)
  | arith op left right ihl ihr =>
      cases b with
      | arith op' left' right' =>
          rcases arith_lt.mp h with hop | ⟨rfl, hl | ⟨rfl, hr⟩⟩
          · exact .operator _ _ _ _ (ArithOp.compare_lt.mp hop)
          · exact .left _ _ _ (ihl hl)
          · exact .right _ _ (ihr hr)
      | _ => exact .variant (Nat.compare_eq_lt.mp h)

theorem compare_of_before {a b : Expr} (h : Before a b) : compare a b = .lt := by
  induction h with
  | variant h =>
      rw [compare_of_variant (Nat.ne_of_lt h)]
      exact Nat.compare_eq_lt.mpr h
  | ident h => exact compare_name_lt.mpr h
  | integer h => exact compare_literal_lt.mpr h
  | bool => rfl
  | neg _ ih => exact ih
  | operator a b c d h => exact arith_lt.mpr (.inl (ArithOp.compare_lt.mpr h))
  | left o c d _ ih => exact arith_lt.mpr (.inr ⟨rfl, .inl ih⟩)
  | right o a _ ih => exact arith_lt.mpr (.inr ⟨rfl, .inr ⟨rfl, ih⟩⟩)

/-- The comparison of expressions is the order of expressions. -/
theorem compare_lt (a b : Expr) : compare a b = .lt ↔ Before a b :=
  ⟨before_of_compare, compare_of_before⟩

end Expr

/-! ## Predicates -/

namespace Pred

/-- The declarations of a quantifier decide before its body. -/
inductive Before : Pred → Pred → Prop
  | variant {a b : Pred} (h : a.ctorIdx < b.ctorIdx) : Before a b
  | not {a b : Pred} (h : Before a b) : Before (.not a) (.not b)
  | connective {o p : Connective} (a b c d : Pred) (h : o.ctorIdx < p.ctorIdx) :
      Before (.binary o a c) (.binary p b d)
  | left (o : Connective) {a b : Pred} (c d : Pred) (h : Before a b) :
      Before (.binary o a c) (.binary o b d)
  | right (o : Connective) (a : Pred) {c d : Pred} (h : Before c d) :
      Before (.binary o a c) (.binary o a d)
  | relation {o p : Relation} (a b c d : Expr) (h : o.ctorIdx < p.ctorIdx) :
      Before (.relation o a c) (.relation p b d)
  | leftSide (o : Relation) {a b : Expr} (c d : Expr) (h : a.Before b) :
      Before (.relation o a c) (.relation o b d)
  | rightSide (o : Relation) (a : Expr) {c d : Expr} (h : c.Before d) :
      Before (.relation o a c) (.relation o a d)
  | quantifier {q r : Quantifier} (ds es : List TypedName) (a b : Pred)
      (h : q.ctorIdx < r.ctorIdx) : Before (.quantified q ds a) (.quantified r es b)
  | decls (q : Quantifier) {ds es : List TypedName} (a b : Pred)
      (h : List.Lex TypedName.Before ds es) : Before (.quantified q ds a) (.quantified q es b)
  | body (q : Quantifier) (ds : List TypedName) {a b : Pred} (h : Before a b) :
      Before (.quantified q ds a) (.quantified q ds b)

/-- Predicates of different forms are compared by their forms. -/
theorem compare_of_variant {a b : Pred} (h : a.ctorIdx ≠ b.ctorIdx) :
    compare a b = compare a.ctorIdx b.ctorIdx := by
  cases a <;> cases b <;> first | rfl | exact absurd rfl h

/-- The connective decides, then the left side, then the right one. -/
theorem binary_lt {o p : Connective} {a b c d : Pred} :
    compare (binary o a c) (binary p b d) = .lt ↔
      compare o p = .lt ∨ o = p ∧ (compare a b = .lt ∨ a = b ∧ compare c d = .lt) := by
  show (compare o p).then ((compare a b).then (compare c d)) = .lt ↔ _
  exact then_then_lt_iff

/-- The relation decides, then the left side, then the right one. -/
theorem relation_lt {o p : Relation} {a b c d : Expr} :
    compare (relation o a c) (relation p b d) = .lt ↔
      compare o p = .lt ∨ o = p ∧ (compare a b = .lt ∨ a = b ∧ compare c d = .lt) := by
  show (compare o p).then ((compare a b).then (compare c d)) = .lt ↔ _
  exact then_then_lt_iff

/-- The quantifier decides, then the declarations, then the body. -/
theorem quantified_lt {q r : Quantifier} {ds es : List TypedName} {a b : Pred} :
    compare (quantified q ds a) (quantified r es b) = .lt ↔
      compare q r = .lt ∨ q = r ∧ (compare ds es = .lt ∨ ds = es ∧ compare a b = .lt) := by
  show (compare q r).then ((compare ds es).then (compare a b)) = .lt ↔ _
  exact then_then_lt_iff

/-- What compares as less comes before, by recursion on both predicates. -/
theorem before_of_compare {a b : Pred} (h : compare a b = .lt) : Before a b := by
  -- as for expressions, with the ranks first
  induction a generalizing b with
  | top => cases b <;> exact .variant (Nat.compare_eq_lt.mp h)
  | bottom => cases b <;> exact .variant (Nat.compare_eq_lt.mp h)
  | not inner ih =>
      cases b with
      | not inner' => exact .not (ih h)
      | _ => exact .variant (Nat.compare_eq_lt.mp h)
  | binary op left right ihl ihr =>
      cases b with
      | binary op' left' right' =>
          rcases binary_lt.mp h with hop | ⟨rfl, hl | ⟨rfl, hr⟩⟩
          · exact .connective _ _ _ _ (Connective.compare_lt.mp hop)
          · exact .left _ _ _ (ihl hl)
          · exact .right _ _ (ihr hr)
      | _ => exact .variant (Nat.compare_eq_lt.mp h)
  | relation op left right =>
      cases b with
      | relation op' left' right' =>
          rcases relation_lt.mp h with hop | ⟨rfl, hl | ⟨rfl, hr⟩⟩
          · exact .relation _ _ _ _ (Relation.compare_lt.mp hop)
          · exact .leftSide _ _ _ ((Expr.compare_lt _ _).mp hl)
          · exact .rightSide _ _ ((Expr.compare_lt _ _).mp hr)
      | _ => exact .variant (Nat.compare_eq_lt.mp h)
  | quantified quantifier decls body ih =>
      cases b with
      | quantified quantifier' decls' body' =>
          rcases quantified_lt.mp h with hop | ⟨rfl, hdecls | ⟨rfl, hbody⟩⟩
          · exact .quantifier _ _ _ _ (Quantifier.compare_lt.mp hop)
          · exact .decls _ _ _ ((compare_list_lt TypedName.compare_lt).mp hdecls)
          · exact .body _ _ (ih hbody)
      | _ => exact .variant (Nat.compare_eq_lt.mp h)

theorem compare_of_before {a b : Pred} (h : Before a b) : compare a b = .lt := by
  induction h with
  | variant h =>
      rw [compare_of_variant (Nat.ne_of_lt h)]
      exact Nat.compare_eq_lt.mpr h
  | not _ ih => exact ih
  | connective a b c d h => exact binary_lt.mpr (.inl (Connective.compare_lt.mpr h))
  | left o c d _ ih => exact binary_lt.mpr (.inr ⟨rfl, .inl ih⟩)
  | right o a _ ih => exact binary_lt.mpr (.inr ⟨rfl, .inr ⟨rfl, ih⟩⟩)
  | relation a b c d h => exact relation_lt.mpr (.inl (Relation.compare_lt.mpr h))
  | leftSide o c d h => exact relation_lt.mpr (.inr ⟨rfl, .inl ((Expr.compare_lt _ _).mpr h)⟩)
  | rightSide o a h =>
      exact relation_lt.mpr (.inr ⟨rfl, .inr ⟨rfl, (Expr.compare_lt _ _).mpr h⟩⟩)
  | quantifier ds es a b h => exact quantified_lt.mpr (.inl (Quantifier.compare_lt.mpr h))
  | decls q a b h =>
      exact quantified_lt.mpr (.inr ⟨rfl, .inl ((compare_list_lt TypedName.compare_lt).mpr h)⟩)
  | body q ds _ ih => exact quantified_lt.mpr (.inr ⟨rfl, .inr ⟨rfl, ih⟩⟩)

/-- The comparison of predicates is the order of predicates. -/
theorem compare_lt (a b : Pred) : compare a b = .lt ↔ Before a b :=
  ⟨before_of_compare, compare_of_before⟩

end Pred

/-! ## Total orders -/

/-- The comparison answers by `before`, says "equal" of equal values only, and
    "less or equal" is a total order. -/
structure Orders {α : Type} (before : α → α → Prop) (cmp : α → α → Ordering) : Prop where
  lt_iff : ∀ a b, cmp a b = .lt ↔ before a b
  eq_iff : ∀ a b, cmp a b = .eq ↔ a = b
  gt_iff : ∀ a b, cmp a b = .gt ↔ before b a
  total : ∀ a b, (cmp a b).isLE = true ∨ (cmp b a).isLE = true
  antisymm : ∀ a b, (cmp a b).isLE = true → (cmp b a).isLE = true → a = b
  trans : ∀ a b c, (cmp a b).isLE = true → (cmp b c).isLE = true → (cmp a c).isLE = true

/-- A lawful comparison orders by what it answers "less" to. -/
theorem orders_of_lt {α : Type} [Ord α] [Std.TransOrd α] [Std.LawfulEqOrd α]
    {before : α → α → Prop} (hlt : ∀ a b : α, compare a b = .lt ↔ before a b) :
    Orders before (compare : α → α → Ordering) where
  lt_iff := hlt
  eq_iff _ _ := Std.LawfulEqCmp.compare_eq_iff_eq
  gt_iff a b := Std.OrientedCmp.gt_iff_lt.trans (hlt b a)
  total a b := by
    have hswap : compare b a = (compare a b).swap := Std.OrientedCmp.eq_swap
    rw [hswap]
    cases compare a b with
    | lt => exact .inl rfl
    | eq => exact .inl rfl
    | gt => exact .inr rfl
  antisymm _ _ hab hba := Std.LawfulEqCmp.eq_of_compare (Std.OrientedCmp.isLE_antisymm hab hba)
  trans _ _ _ := Std.TransCmp.isLE_trans

end SequentProver
