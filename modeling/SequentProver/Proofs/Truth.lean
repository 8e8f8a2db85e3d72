import Mathlib.Data.Set.Defs
import SequentProver.Proofs.Growth

/-! # Truth

    The standard meaning of formulas.  An interpretation chooses a set for
    every given type; integers are unbounded, power sets are full, products
    are sets of pairs.  A valuation gives every name a value of some type,
    and quantifiers range over the values of the declared type, the inner
    binder shadowing the outer one.

    Route:
    1. values, expressions, predicates;
    2. `holds_congr`: truth depends on the values of the free names only;
    3. `Respects`: valuations whose values have the types of an
       environment, and how binders extend them;
    4. `Valid`, the truth of a sequent. -/

universe u

namespace SequentProver

/-! ## Values -/

/-- A set for every given type, possibly an empty one. -/
structure Interpretation where
  given : String → Type u

/-- The values of a type. -/
def Ty.Denotes (I : Interpretation.{u}) : Ty → Type u
  | .integer => ULift Int
  | .boolean => ULift Bool
  | .given name => I.given name
  | .powerSet elem => Set (elem.Denotes I)
  | .product left right => left.Denotes I × right.Denotes I

/-- A value together with its type. -/
structure Value (I : Interpretation.{u}) where
  ty : Ty
  val : ty.Denotes I

namespace Value

variable {I : Interpretation.{u}}

/-- An integer as a value. -/
def ofInt (k : Int) : Value I := ⟨.integer, ⟨k⟩⟩

/-- A truth value as a value. -/
def ofBool (b : Bool) : Value I := ⟨.boolean, ⟨b⟩⟩

/-- The integer a value is.  Well-typed expressions ask this of integers
    only. -/
def toInt : Value I → Int
  | ⟨.integer, k⟩ => k.down
  | _ => 0

end Value

/-- A value for every name. -/
abbrev Valuation (I : Interpretation.{u}) := String → Value I

namespace Valuation

variable {I : Interpretation.{u}}

/-- The valuation with another value for one name. -/
def update (ρ : Valuation I) (name : String) (v : Value I) : Valuation I :=
  fun x => if name = x then v else ρ x

/-- `σ` is `ρ` with a value of the declared type for each declared name, a
    later declaration overriding an earlier one. -/
def Assigns : List TypedName → Valuation I → Valuation I → Prop
  | [], ρ, σ => σ = ρ
  | d :: ds, ρ, σ => ∃ v : d.ty.Denotes I, Assigns ds (ρ.update d.name ⟨d.ty, v⟩) σ

end Valuation

/-! ## Formulas -/

/-- The operation on integers; numbers are not bounded here. -/
def ArithOp.apply : ArithOp → Int → Int → Int
  | .add, k, l => k + l
  | .sub, k, l => k - l
  | .mul, k, l => k * l

/-- The value of an expression. -/
def Expr.value {I : Interpretation.{u}} (ρ : Valuation I) : Expr → Value I
  | .ident name => ρ name
  | .integer k => .ofInt k.toInt
  | .bool b => .ofBool b
  | .neg inner => .ofInt (-(inner.value ρ).toInt)
  | .arith op left right => .ofInt (op.apply (left.value ρ).toInt (right.value ρ).toInt)

/-- What the connective says of two statements. -/
def Connective.Combine : Connective → Prop → Prop → Prop
  | .and, p, q => p ∧ q
  | .or, p, q => p ∨ q
  | .imp, p, q => p → q
  | .iff, p, q => p ↔ q

/-- What the relation says of two values. -/
def Relation.Relates {I : Interpretation.{u}} : Relation → Value I → Value I → Prop
  | .eq, v, w => v = w
  | .notEq, v, w => v ≠ w
  | .lt, v, w => v.toInt < w.toInt
  | .le, v, w => v.toInt ≤ w.toInt
  | .gt, v, w => v.toInt > w.toInt
  | .ge, v, w => v.toInt ≥ w.toInt

/-- Whether a predicate is true. -/
def Pred.Holds {I : Interpretation.{u}} : Pred → Valuation I → Prop
  | .top, _ => True
  | .bottom, _ => False
  | .not inner, ρ => ¬ inner.Holds ρ
  | .binary op left right, ρ => op.Combine (left.Holds ρ) (right.Holds ρ)
  | .relation op left right, ρ => op.Relates (left.value ρ) (right.value ρ)
  | .quantified .universal ds body, ρ => ∀ σ, ρ.Assigns ds σ → body.Holds σ
  | .quantified .existential ds body, ρ => ∃ σ, ρ.Assigns ds σ ∧ body.Holds σ

/-! ## Free names -/

variable {I : Interpretation.{u}}

namespace Valuation

variable {ρ ρ' σ : Valuation I} {ds : List TypedName}

/-- Names that are not declared keep their value. -/
theorem Assigns.eq_of_ne (h : ρ.Assigns ds σ) {x : String} (hx : ∀ d ∈ ds, d.name ≠ x) :
    σ x = ρ x := by
  induction ds generalizing ρ with
  | nil =>
      cases h
      rfl
  | cons d ds ih =>
      obtain ⟨v, h⟩ := h
      rw [ih h fun d' hd' => hx d' (List.mem_cons_of_mem _ hd')]
      exact if_neg (hx d List.mem_cons_self)

/-- The same values can be assigned over another valuation.  The results
    agree on declared names and wherever the valuations agreed. -/
theorem Assigns.transfer (h : ρ.Assigns ds σ) (ρ' : Valuation I) :
    ∃ σ', ρ'.Assigns ds σ' ∧
      ∀ x, (ρ x = ρ' x ∨ ∃ d ∈ ds, d.name = x) → σ x = σ' x := by
  induction ds generalizing ρ ρ' with
  | nil =>
      cases h
      refine ⟨ρ', rfl, fun x hx => ?_⟩
      rcases hx with hx | ⟨d, hd, -⟩
      · exact hx
      · exact nomatch hd
  | cons d ds ih =>
      obtain ⟨v, h⟩ := h
      obtain ⟨σ', hσ', hagree⟩ := ih h (ρ'.update d.name ⟨d.ty, v⟩)
      refine ⟨σ', ⟨v, hσ'⟩, fun x hx => hagree x ?_⟩
      by_cases hd : d.name = x
      · -- both updates give the name the same value
        refine Or.inl ?_
        rw [update, update, if_pos hd, if_pos hd]
      · rcases hx with hx | ⟨d', hd', hx⟩
        · refine Or.inl ?_
          rw [update, update, if_neg hd, if_neg hd]
          exact hx
        · rcases List.mem_cons.mp hd' with rfl | hd'
          · exact absurd hx hd
          · exact Or.inr ⟨d', hd', hx⟩

end Valuation

/-- The value depends on the names that occur. -/
theorem Expr.value_congr {e : Expr} {ρ ρ' : Valuation I} (h : ∀ x ∈ e.nameList, ρ x = ρ' x) :
    e.value ρ = e.value ρ' := by
  induction e with
  | ident name => exact h name List.mem_cons_self
  | integer k => rfl
  | bool b => rfl
  | neg inner ih => rw [value, value, ih h]
  | arith op left right ihl ihr =>
      rw [value, value, ihl fun x hx => h x (List.mem_append.mpr (Or.inl hx)),
        ihr fun x hx => h x (List.mem_append.mpr (Or.inr hx))]

/-- Truth depends on the values of the free names only. -/
theorem Pred.holds_congr {p : Pred} {ρ ρ' : Valuation I}
    (h : ∀ x ∈ p.freeList, ρ x = ρ' x) : p.Holds ρ ↔ p.Holds ρ' := by
  induction p generalizing ρ ρ' with
  | top => exact Iff.rfl
  | bottom => exact Iff.rfl
  | not inner ih => exact not_congr (ih h)
  | binary op left right ihl ihr =>
      have hl := propext (ihl fun x hx => h x (List.mem_append.mpr (Or.inl hx)))
      have hr := propext (ihr fun x hx => h x (List.mem_append.mpr (Or.inr hx)))
      rw [Holds, Holds, hl, hr]
  | relation op left right =>
      rw [Holds, Holds, Expr.value_congr fun x hx => h x (List.mem_append.mpr (Or.inl hx)),
        Expr.value_congr fun x hx => h x (List.mem_append.mpr (Or.inr hx))]
  | quantified q ds body ih =>
      -- a name that is free in the body is declared, or free in the whole
      have hbody : ∀ {ρ ρ' : Valuation I},
          (∀ x ∈ (Pred.quantified q ds body).freeList, ρ x = ρ' x) →
          ∀ {σ : Valuation I}, ρ.Assigns ds σ →
            ∃ σ', ρ'.Assigns ds σ' ∧ (body.Holds σ ↔ body.Holds σ') := by
        intro ρ ρ' h σ hσ
        obtain ⟨σ', hσ', hagree⟩ := hσ.transfer ρ'
        refine ⟨σ', hσ', ih fun x hx => hagree x ?_⟩
        by_cases hdecl : ∃ d ∈ ds, d.name = x
        · exact Or.inr hdecl
        · refine Or.inl (h x (TypeEnv.mem_freeList_quantified.mpr ⟨hx, fun d hd heq => ?_⟩))
          exact hdecl ⟨d, hd, heq⟩
      cases q with
      | universal =>
          constructor
          · intro hall σ' hσ'
            obtain ⟨σ, hσ, hiff⟩ := hbody (fun x hx => (h x hx).symm) hσ'
            exact hiff.mpr (hall σ hσ)
          · intro hall σ hσ
            obtain ⟨σ', hσ', hiff⟩ := hbody h hσ
            exact hiff.mpr (hall σ' hσ')
      | existential =>
          constructor
          · rintro ⟨σ, hσ, hholds⟩
            obtain ⟨σ', hσ', hiff⟩ := hbody h hσ
            exact ⟨σ', hσ', hiff.mp hholds⟩
          · rintro ⟨σ', hσ', hholds⟩
            obtain ⟨σ, hσ, hiff⟩ := hbody (fun x hx => (h x hx).symm) hσ'
            exact ⟨σ, hσ, hiff.mp hholds⟩

/-! ## Types of values -/

namespace Valuation

variable {ρ σ : Valuation I} {ds : List TypedName} {env env' : TypeEnv}

/-- Every bound name has a value of its type. -/
def Respects (ρ : Valuation I) (env : TypeEnv) : Prop :=
  ∀ x ty, env.typeOf? x = some ty → (ρ x).ty = ty

/-- A declared name gets a value of the declared type, if no other
    declaration overrides it. -/
theorem Assigns.ty_eq (h : ρ.Assigns ds σ) (hds : (ds.map TypedName.name).Nodup)
    {d : TypedName} (hd : d ∈ ds) : (σ d.name).ty = d.ty := by
  induction ds generalizing ρ with
  | nil => exact nomatch hd
  | cons d' ds ih =>
      obtain ⟨v, h⟩ := h
      rw [List.map_cons, List.nodup_cons] at hds
      rcases List.mem_cons.mp hd with rfl | hd
      · have hlater : ∀ e ∈ ds, e.name ≠ d.name := fun e he heq =>
          hds.1 (heq ▸ List.mem_map.mpr ⟨e, he, rfl⟩)
        rw [h.eq_of_ne hlater, update, if_pos rfl]
      · exact ih h hds.2 hd

/-- Binding names in the environment and assigning them values go
    together. -/
theorem Respects.assigns (hρ : ρ.Respects env) (henv : env.extend ds = .ok env')
    (h : ρ.Assigns ds σ) : σ.Respects env' := by
  intro x ty hx
  by_cases hdecl : ∃ d ∈ ds, d.name = x
  · obtain ⟨d, hd, rfl⟩ := hdecl
    rw [TypeEnv.typeOf?_extend_of_mem henv hd] at hx
    cases hx
    exact h.ty_eq (TypeEnv.fresh_of_extend henv).1 hd
  · have hne : ∀ d ∈ ds, d.name ≠ x := fun d hd heq => hdecl ⟨d, hd, heq⟩
    rw [TypeEnv.typeOf?_extend_of_ne henv hne] at hx
    rw [h.eq_of_ne hne]
    exact hρ x ty hx

/-- What an environment accepts keeps its truth when names are assigned that
    the environment does not bind. -/
theorem Assigns.holds_iff (h : ρ.Assigns ds σ) (hds : ∀ d ∈ ds, env.typeOf? d.name = none)
    {p : Pred} (hp : env.accepts p = true) : p.Holds σ ↔ p.Holds ρ := by
  refine Pred.holds_congr fun x hx => h.eq_of_ne fun d hd heq => ?_
  obtain ⟨ty, hty⟩ := TypeEnv.typeOf?_of_accepts hp hx
  rw [← heq, hds d hd] at hty
  exact nomatch hty

end Valuation

/-! ## Sequents -/

namespace Sequent

/-- Under every interpretation and every valuation that respects the
    environment, if all hypotheses are true, whatever their standing, then
    the goal is. -/
def Valid (s : Sequent) : Prop :=
  ∀ (I : Interpretation.{u}) (ρ : Valuation I), ρ.Respects s.env →
    (∀ p, s.has p = true → p.Holds ρ) → s.goal.Holds ρ

/-- Validity does not depend on where hypotheses come from. -/
theorem valid_congr {s t : Sequent} (h : s.sameAs t = true) : s.Valid.{u} ↔ t.Valid.{u} := by
  obtain ⟨hgoal, henv, hhas⟩ := sameAs_spec h
  rw [Valid, Valid, hgoal, henv]
  simp only [hhas]

end Sequent

end SequentProver
