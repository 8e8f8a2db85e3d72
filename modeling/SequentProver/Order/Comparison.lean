/-! # Comparisons by constructor and field

    A structured value is compared by its constructor first and then by
    its fields from left to right.  This module holds the laws such a
    comparison has to satisfy and the one step they need: a first field
    that decides, or a first field that is equal and a rest that decides.

    Route:
    1. `TotalComparison` — the laws, with strictness instead of `≤`;
    2. `then_lt_trans` — transitivity passes through "first field, then
       the rest";
    3. `TotalComparison.transCmp` and `.lawfulEqCmp` — the laws as the
       order classes of the standard library. -/

namespace SequentProver

variable {α : Type}

/-- The laws of a comparison that orders its type totally: equal exactly
    on equal values, turned round by exchanging the arguments, and
    transitive. -/
structure TotalComparison (cmp : α → α → Ordering) : Prop where
  self : ∀ a, cmp a a = .eq
  eq_of_eq : ∀ {a b}, cmp a b = .eq → a = b
  swap : ∀ a b, cmp a b = (cmp b a).swap
  lt_trans : ∀ {a b c}, cmp a b = .lt → cmp b c = .lt → cmp a c = .lt

namespace TotalComparison

/-- An order of the standard library has the laws. -/
theorem of_ord [Ord α] [Std.TransOrd α] [Std.LawfulEqOrd α] :
    TotalComparison (compare : α → α → Ordering) where
  self _ := Std.ReflCmp.compare_self
  eq_of_eq := Std.LawfulEqCmp.eq_of_compare
  swap _ _ := Std.OrientedCmp.eq_swap
  lt_trans := Std.TransCmp.lt_trans

/-- The laws give what the standard library asks of an order. -/
theorem transCmp {cmp : α → α → Ordering} (h : TotalComparison cmp) :
    Std.TransCmp cmp where
  eq_swap := h.swap _ _
  isLE_trans {a b c} hab hbc := by
    rw [Ordering.isLE_iff_eq_lt_or_eq_eq] at hab hbc ⊢
    rcases hab with hab | hab
    · rcases hbc with hbc | hbc
      · exact Or.inl (h.lt_trans hab hbc)
      · exact Or.inl (h.eq_of_eq hbc ▸ hab)
    · rw [h.eq_of_eq hab]
      exact hbc

theorem lawfulEqCmp {cmp : α → α → Ordering} (h : TotalComparison cmp) :
    Std.LawfulEqCmp cmp where
  compare_self := h.self _
  eq_of_compare := h.eq_of_eq

/-- Comparing by an injective key. -/
theorem comap {β : Type} {cmp : α → α → Ordering} (h : TotalComparison cmp)
    {key : β → α} (inj : ∀ {a b}, key a = key b → a = b) :
    TotalComparison fun a b => cmp (key a) (key b) where
  self _ := h.self _
  eq_of_eq hab := inj (h.eq_of_eq hab)
  swap _ _ := h.swap _ _
  lt_trans := h.lt_trans

end TotalComparison

/-- Transitivity of "compare the first field, then the rest": `first` and
    `rest` only have to be transitive on the values at hand. -/
theorem then_lt_trans {cmp : α → α → Ordering} {x y z : α}
    {xy yz xz : Ordering} (eq_of_eq : ∀ {a b}, cmp a b = .eq → a = b)
    (first : cmp x y = .lt → cmp y z = .lt → cmp x z = .lt)
    (rest : xy = .lt → yz = .lt → xz = .lt)
    (hxy : (cmp x y).then xy = .lt) (hyz : (cmp y z).then yz = .lt) :
    (cmp x z).then xz = .lt := by
  rw [Ordering.then_eq_lt] at hxy hyz ⊢
  rcases hxy with hxy | ⟨hxy, hr⟩
  · rcases hyz with hyz | ⟨hyz, -⟩
    · exact Or.inl (first hxy hyz)
    · exact Or.inl (eq_of_eq hyz ▸ hxy)
  · have hsame : x = y := eq_of_eq hxy
    subst hsame
    rcases hyz with hyz | ⟨hyz, hr'⟩
    · exact Or.inl hyz
    · exact Or.inr ⟨hyz, rest hr hr'⟩

end SequentProver
