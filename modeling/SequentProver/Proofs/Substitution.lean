import SequentProver.Proofs.Truth

/-! # Substitution

    An expression takes the place of the free occurrences of a name.  Under a
    quantifier that is done only if nothing is captured: where a name of the
    expression is declared around a free occurrence there is no result.  What
    results then means what the old predicate means with the value of the
    expression for the name.

    Route:
    1. expressions, where nothing can be captured;
    2. `occurrences`, the free occurrences of a name with the declarations
       around them, and `Captures`;
    3. when there is a result, and which names are free in it;
    4. `holds_substitute`: values are assigned to declared names and to the
       replaced name in any order, since they differ. -/

universe u

namespace SequentProver

variable {I : Interpretation.{u}}

/-! ## Expressions -/

namespace Expr

variable {e value : Expr} {name x : String}

/-- Where the name does not occur nothing is replaced. -/
theorem substitute_of_notMem (h : name ∉ e.nameList) : e.substitute name value = e := by
  induction e with
  | ident n =>
      have hne : n ≠ name := fun heq => h (heq ▸ List.mem_cons_self)
      exact if_neg hne
  | integer k => rfl
  | bool b => rfl
  | neg inner ih => rw [substitute, ih h]
  | arith op left right ihl ihr =>
      rw [substitute, ihl fun hmem => h (List.mem_append.mpr (Or.inl hmem)),
        ihr fun hmem => h (List.mem_append.mpr (Or.inr hmem))]

/-- The replaced name gives way to the names of the value. -/
theorem mem_nameList_substitute :
    x ∈ (e.substitute name value).nameList ↔
      (x ∈ e.nameList ∧ x ≠ name) ∨ (name ∈ e.nameList ∧ x ∈ value.nameList) := by
  induction e with
  | ident n =>
      by_cases hn : n = name
      · subst hn
        simp [substitute, nameList]
      · have hn' : name ≠ n := fun h => hn h.symm
        simp only [substitute, if_neg hn, nameList, List.mem_singleton, hn', false_and, or_false]
        constructor
        · rintro rfl
          exact ⟨rfl, hn⟩
        · exact And.left
  | integer k => simp [substitute, nameList]
  | bool b => simp [substitute, nameList]
  | neg inner ih => exact ih
  -- the same regrouping of the two sides as for a union
  | arith op left right ihl ihr =>
      rw [substitute, nameList, nameList, List.mem_append, List.mem_append, List.mem_append, ihl,
        ihr, or_and_right, or_and_right, or_or_or_comm]

/-- The value after a substitution is that with the name standing for the value
    put in. -/
theorem value_substitute (e : Expr) (name : String) (value : Expr) (ρ : Valuation I) :
    (e.substitute name value).value ρ = e.value (ρ.update name (value.value ρ)) := by
  induction e with
  | ident n =>
      rw [substitute]
      by_cases hn : n = name
      · rw [if_pos hn]
        exact (if_pos hn.symm).symm
      · rw [if_neg hn]
        exact (if_neg (Ne.symm hn)).symm
  | integer k => rfl
  | bool b => rfl
  | neg inner ih => rw [substitute, Expr.value, Expr.value, ih]
  | arith op left right ihl ihr => rw [substitute, Expr.value, Expr.value, ihl, ihr]

end Expr

/-! ## Free occurrences -/

namespace Pred

variable {p q left right body : Pred} {op : Connective} {quantifier : Quantifier}
  {decls : List TypedName} {name x : String} {value : Expr}

/-- The free occurrences of a name, from left to right.  An occurrence is given
    by the declarations in whose scope it stands, outermost first. -/
def occurrences (name : String) : Pred → List (List TypedName)
  | .top => []
  | .bottom => []
  | .not inner => inner.occurrences name
  | .binary _ left right => left.occurrences name ++ right.occurrences name
  | .relation _ left right =>
    ((left.nameList ++ right.nameList).filter (· = name)).map fun _ => []
  | .quantified _ decls body =>
    -- a declaration of the name itself binds every occurrence in the body
    if decls.any (fun d => d.name = name) then []
    else (body.occurrences name).map (decls ++ ·)

/-- Occurrences under a quantifier: those of the body, unless the name is
    declared. -/
theorem mem_occurrences_quantified {scope : List TypedName} :
    scope ∈ (Pred.quantified quantifier decls body).occurrences name ↔
      (∀ d ∈ decls, d.name ≠ name) ∧ ∃ inner ∈ body.occurrences name, scope = decls ++ inner := by
  rw [occurrences]
  -- a binder of the name hides all that is below it
  by_cases hdecl : decls.any (fun d => d.name = name) = true
  · rw [if_pos hdecl]
    obtain ⟨d, hd, hname⟩ := List.any_eq_true.mp hdecl
    constructor
    · intro h
      exact absurd h List.not_mem_nil
    · rintro ⟨hne, -⟩
      exact absurd (of_decide_eq_true hname) (hne d hd)
  · rw [if_neg hdecl, List.mem_map]
    have hne : ∀ d ∈ decls, d.name ≠ name := by
      intro d hd hname
      exact hdecl (List.any_eq_true.mpr ⟨d, hd, decide_eq_true hname⟩)
    constructor
    · rintro ⟨inner, hinner, rfl⟩
      exact ⟨hne, inner, hinner, rfl⟩
    · rintro ⟨-, inner, hinner, rfl⟩
      exact ⟨inner, hinner, rfl⟩

/-- A name is free where it has a free occurrence. -/
theorem mem_freeList_iff : name ∈ p.freeList ↔ ∃ scope, scope ∈ p.occurrences name := by
  induction p with
  | top | bottom =>
      constructor
      · intro h
        exact absurd h List.not_mem_nil
      · rintro ⟨scope, h⟩
        exact absurd h List.not_mem_nil
  | not inner ih => exact ih
  | binary op left right ihl ihr =>
      simp only [freeList, occurrences, List.mem_append, ihl, ihr, exists_or]
  | relation op left right =>
      simp only [freeList, occurrences, List.mem_map, List.mem_filter, decide_eq_true_eq]
      -- in a relation every name is free, below no binder
      constructor
      · intro h
        exact ⟨[], name, ⟨h, rfl⟩, rfl⟩
      · rintro ⟨-, y, ⟨hy, rfl⟩, -⟩
        exact hy
  | quantified quantifier decls body ih =>
      simp only [TypeEnv.mem_freeList_quantified, mem_occurrences_quantified, ih]
      constructor
      · rintro ⟨⟨inner, hinner⟩, hne⟩
        exact ⟨_, hne, inner, hinner, rfl⟩
      · rintro ⟨-, hne, inner, hinner, -⟩
        exact ⟨⟨inner, hinner⟩, hne⟩

/-- Some free occurrence of `name` stands in the scope of a declaration of a
    name that `value` mentions. -/
def Captures (p : Pred) (name : String) (value : Expr) : Prop :=
  ∃ scope ∈ p.occurrences name, ∃ d ∈ scope, d.name ∈ value.names

instance : Decidable (p.Captures name value) :=
  inferInstanceAs (Decidable (∃ scope ∈ p.occurrences name, ∃ d ∈ scope, d.name ∈ value.names))

/-- A value is captured on one of the two sides. -/
theorem captures_binary : (Pred.binary op left right).Captures name value ↔
    left.Captures name value ∨ right.Captures name value := by
  simp only [Captures, occurrences, List.mem_append, or_and_right, exists_or]

/-- There is nothing to be captured by in a relation. -/
theorem not_captures_relation {rel : Relation} {l r : Expr} :
    ¬ (Pred.relation rel l r).Captures name value := by
  rintro ⟨scope, hscope, d, hd, -⟩
  obtain ⟨y, -, rfl⟩ := List.mem_map.mp hscope
  exact absurd hd List.not_mem_nil

/-- Where the name is not free nothing is captured. -/
theorem not_captures_of_notMem (hfree : name ∉ p.freeList) : ¬ p.Captures name value := by
  rintro ⟨scope, hscope, -⟩
  exact hfree (mem_freeList_iff.mpr ⟨scope, hscope⟩)

/-- A quantifier around a free occurrence captures by its own declarations, or
    its body does. -/
theorem captures_quantified (hfree : name ∈ (Pred.quantified quantifier decls body).freeList) :
    (Pred.quantified quantifier decls body).Captures name value ↔
      (∃ d ∈ decls, d.name ∈ value.names) ∨ body.Captures name value := by
  obtain ⟨hbody, hne⟩ := TypeEnv.mem_freeList_quantified.mp hfree
  constructor
  · rintro ⟨scope, hscope, d, hd, hvalue⟩
    obtain ⟨-, inner, hinner, rfl⟩ := mem_occurrences_quantified.mp hscope
    rcases List.mem_append.mp hd with hd | hd
    · exact Or.inl ⟨d, hd, hvalue⟩
    · exact Or.inr ⟨inner, hinner, d, hd, hvalue⟩
  · rintro (⟨d, hd, hvalue⟩ | ⟨inner, hinner, d, hd, hvalue⟩)
    · obtain ⟨inner, hinner⟩ := mem_freeList_iff.mp hbody
      exact ⟨decls ++ inner, mem_occurrences_quantified.mpr ⟨hne, inner, hinner, rfl⟩, d,
        List.mem_append.mpr (Or.inl hd), hvalue⟩
    · exact ⟨decls ++ inner, mem_occurrences_quantified.mpr ⟨hne, inner, hinner, rfl⟩, d,
        List.mem_append.mpr (Or.inr hd), hvalue⟩

/-! ## Results -/

/-- A substitution goes into both sides or fails. -/
theorem substitute_binary_eq_some :
    (Pred.binary op left right).substitute name value = some q ↔
      ∃ l r, left.substitute name value = some l ∧ right.substitute name value = some r ∧
        q = .binary op l r := by
  rw [substitute]
  constructor
  · intro h
    obtain ⟨l, hl, h⟩ := Option.bind_eq_some_iff.mp h
    obtain ⟨r, hr, h⟩ := Option.bind_eq_some_iff.mp h
    cases h
    exact ⟨l, r, hl, hr, rfl⟩
  · rintro ⟨l, r, hl, hr, rfl⟩
    rw [hl, hr]
    rfl

/-- A quantified predicate in which the name is not free is left as it is,
    whatever is declared. -/
theorem substitute_quantified_of_notMem
    (hfree : name ∉ (Pred.quantified quantifier decls body).freeList) :
    (Pred.quantified quantifier decls body).substitute name value =
      some (.quantified quantifier decls body) := by
  rw [substitute, if_pos]
  rw [TypeEnv.mem_freeList_quantified] at hfree
  by_cases hbody : name ∈ body.freeList
  · have hdecl : ¬ ∀ d ∈ decls, d.name ≠ name := fun hne => hfree ⟨hbody, hne⟩
    simpa using Or.inl hdecl
  · simpa using Or.inr hbody

/-- Otherwise the value goes into the body, if none of its names is declared. -/
theorem substitute_quantified_eq_some
    (hfree : name ∈ (Pred.quantified quantifier decls body).freeList) :
    (Pred.quantified quantifier decls body).substitute name value = some q ↔
      (∀ d ∈ decls, d.name ∉ value.nameList) ∧ ∃ body', body.substitute name value = some body' ∧
        q = .quantified quantifier decls body' := by
  obtain ⟨hbody, hne⟩ := TypeEnv.mem_freeList_quantified.mp hfree
  have hgoes : ¬ (decls.any (fun d => d.name = name) || !body.freeList.contains name) = true := by
    simpa using ⟨hne, hbody⟩
  rw [substitute, if_neg hgoes]
  -- the value would be captured by one of the declarations, or none of them
  by_cases hcapture : decls.any (fun d => value.nameList.contains d.name) = true
  · rw [if_pos hcapture]
    obtain ⟨d, hd, hvalue⟩ := List.any_eq_true.mp hcapture
    constructor
    · intro h
      cases h
    · rintro ⟨hnot, -⟩
      exact absurd (List.contains_iff_mem.mp hvalue) (hnot d hd)
  · rw [if_neg hcapture, Option.map_eq_some_iff]
    have hnot : ∀ d ∈ decls, d.name ∉ value.nameList := by
      intro d hd hvalue
      exact hcapture (List.any_eq_true.mpr ⟨d, hd, List.contains_iff_mem.mpr hvalue⟩)
    constructor
    · rintro ⟨body', hbody', rfl⟩
      exact ⟨hnot, body', hbody', rfl⟩
    · rintro ⟨-, body', hbody', rfl⟩
      exact ⟨body', hbody', rfl⟩

/-- Where the name is not free nothing is replaced. -/
theorem substitute_of_notMem (h : name ∉ p.freeList) : p.substitute name value = some p := by
  induction p with
  | top => rfl
  | bottom => rfl
  | not inner ih => rw [substitute, ih h, Option.map_some]
  | binary op left right ihl ihr =>
      have hl := ihl fun hmem => h (List.mem_append.mpr (Or.inl hmem))
      have hr := ihr fun hmem => h (List.mem_append.mpr (Or.inr hmem))
      exact substitute_binary_eq_some.mpr ⟨left, right, hl, hr, rfl⟩
  | relation op left right =>
      rw [substitute, Expr.substitute_of_notMem fun hmem => h (List.mem_append.mpr (Or.inl hmem)),
        Expr.substitute_of_notMem fun hmem => h (List.mem_append.mpr (Or.inr hmem))]
  | quantified quantifier decls body _ => exact substitute_quantified_of_notMem h

/-- There is a result exactly when nothing is captured. -/
theorem exists_substitute_iff :
    (∃ q, p.substitute name value = some q) ↔ ¬ p.Captures name value := by
  induction p with
  | top | bottom => exact ⟨fun _ => not_captures_of_notMem List.not_mem_nil, fun _ => ⟨_, rfl⟩⟩
  | not inner ih =>
      refine Iff.trans ?_ ih
      constructor
      · rintro ⟨q, hq⟩
        obtain ⟨inner', hinner, -⟩ := Option.map_eq_some_iff.mp hq
        exact ⟨inner', hinner⟩
      · rintro ⟨inner', hinner⟩
        exact ⟨.not inner', Option.map_eq_some_iff.mpr ⟨inner', hinner, rfl⟩⟩
  | binary op left right ihl ihr =>
      rw [captures_binary, not_or, ← ihl, ← ihr]
      constructor
      · rintro ⟨q, hq⟩
        obtain ⟨l, r, hl, hr, -⟩ := substitute_binary_eq_some.mp hq
        exact ⟨⟨l, hl⟩, r, hr⟩
      · rintro ⟨⟨l, hl⟩, r, hr⟩
        exact ⟨_, substitute_binary_eq_some.mpr ⟨l, r, hl, hr, rfl⟩⟩
  | relation op left right => exact ⟨fun _ => not_captures_relation, fun _ => ⟨_, rfl⟩⟩
  | quantified quantifier decls body ih =>
      -- below a binder of the name nothing is substituted, so nothing is captured
      by_cases hfree : name ∈ (Pred.quantified quantifier decls body).freeList
      · rw [captures_quantified hfree, not_or, ← ih]
        simp only [substitute_quantified_eq_some hfree]
        constructor
        · rintro ⟨q, hnot, body', hbody', -⟩
          refine ⟨?_, body', hbody'⟩
          rintro ⟨d, hd, hvalue⟩
          exact hnot d hd (SortedSet.mem_ofList.mp hvalue)
        · rintro ⟨hnot, body', hbody'⟩
          refine ⟨_, ?_, body', hbody', rfl⟩
          intro d hd hvalue
          exact hnot ⟨d, hd, SortedSet.mem_ofList.mpr hvalue⟩
      · exact ⟨fun _ => not_captures_of_notMem hfree,
          fun _ => ⟨_, substitute_quantified_of_notMem hfree⟩⟩

/-- Of the free names only the replaced one goes; if it was there, the names of
    the value come in. -/
theorem mem_freeList_substitute (h : p.substitute name value = some q) :
    x ∈ q.freeList ↔
      (x ∈ p.freeList ∧ x ≠ name) ∨ (name ∈ p.freeList ∧ x ∈ value.nameList) := by
  induction p generalizing q with
  | top | bottom =>
      cases h
      simp [freeList]
  | not inner ih =>
      obtain ⟨inner', hinner, rfl⟩ := Option.map_eq_some_iff.mp h
      rw [freeList, freeList, ih hinner]
  | binary op left right ihl ihr =>
      obtain ⟨l, r, hl, hr, rfl⟩ := substitute_binary_eq_some.mp h
      rw [freeList, freeList, List.mem_append, List.mem_append, List.mem_append, ihl hl, ihr hr,
        or_and_right, or_and_right, or_or_or_comm]
  | relation op left right =>
      cases h
      rw [freeList, freeList, List.mem_append, List.mem_append, List.mem_append,
        Expr.mem_nameList_substitute, Expr.mem_nameList_substitute, or_and_right, or_and_right,
        or_or_or_comm]
  | quantified quantifier decls body ih =>
      by_cases hfree : name ∈ (Pred.quantified quantifier decls body).freeList
      · obtain ⟨hnot, body', hbody', rfl⟩ := (substitute_quantified_eq_some hfree).mp h
        have hbody := (TypeEnv.mem_freeList_quantified.mp hfree).1
        rw [TypeEnv.mem_freeList_quantified, TypeEnv.mem_freeList_quantified, ih hbody',
          or_and_right]
        refine or_congr and_right_comm ?_
        constructor
        · rintro ⟨⟨-, hvalue⟩, -⟩
          exact ⟨hfree, hvalue⟩
        · -- a name of the value stays free, since it is not declared
          rintro ⟨-, hvalue⟩
          refine ⟨⟨hbody, hvalue⟩, ?_⟩
          rintro d hd rfl
          exact hnot d hd hvalue
      · rw [substitute_quantified_of_notMem hfree] at h
        cases h
        constructor
        · intro hx
          refine Or.inl ⟨hx, ?_⟩
          rintro rfl
          exact hfree hx
        · rintro (⟨hx, -⟩ | ⟨hname, -⟩)
          · exact hx
          · exact absurd hname hfree

/-- Substitution has no result exactly on capture.  A result is the same
    predicate if the name is not free in it, and otherwise has the free names
    without it and those of the value. -/
theorem substitute_refuses_capture (p : Pred) (name : String) (value : Expr) :
    (∀ x, x ∈ p.freeNames ↔ ∃ scope, scope ∈ p.occurrences x) ∧
      (p.substitute name value = none ↔ p.Captures name value) ∧
      ∀ q, p.substitute name value = some q →
        (name ∉ p.freeNames → q = p) ∧
          (name ∈ p.freeNames →
            q.freeNames = SortedSet.union (p.freeNames.filter (· ≠ name)) value.names) := by
  refine ⟨?_, ?_, ?_⟩
  · intro x
    exact SortedSet.mem_ofList.trans mem_freeList_iff
  -- one direction suffices, as an outcome is there or not
  · rw [← Decidable.not_iff_not, ← exists_substitute_iff]
    exact Option.ne_none_iff_exists'
  · intro q hq
    constructor
    · intro hfree
      rw [substitute_of_notMem fun hmem => hfree (SortedSet.mem_ofList.mpr hmem)] at hq
      exact (Option.some.inj hq).symm
    · intro hfree
      refine SortedSet.ext_mem fun x => ?_
      have hname : name ∈ p.freeList := SortedSet.mem_ofList.mp hfree
      simp only [freeNames, Expr.names, SortedSet.mem_union, SortedSet.mem_filter,
        SortedSet.mem_ofList, mem_freeList_substitute hq, hname, true_and, decide_eq_true_eq]

/-- `x` is free under `∀z`, and bound twice by `∃x`. -/
def tangled : Pred :=
  .binary .and
    (.quantified .existential [⟨"x", .integer⟩] (.relation .eq (.ident "x") (.ident "y")))
    (.quantified .universal [⟨"z", .integer⟩]
      (.binary .or (.relation .lt (.ident "x") (.ident "z"))
        (.quantified .existential [⟨"x", .integer⟩] (.relation .gt (.ident "x") (.ident "z")))))

/-- Into `tangled` goes `x + y` for `x`, but not `z`. -/
theorem tangled_refuses_capture :
    tangled.substitute "x" (.ident "z") = none ∧ tangled.Captures "x" (.ident "z") ∧
      ∃ q, tangled.substitute "x" (.arith .add (.ident "x") (.ident "y")) = some q ∧
        q.freeNames = SortedSet.union (tangled.freeNames.filter (· ≠ "x"))
          (Expr.arith .add (.ident "x") (.ident "y")).names := by
  have hrefused : tangled.substitute "x" (.ident "z") = none := rfl
  refine ⟨hrefused, (substitute_refuses_capture _ _ _).2.1.mp hrefused, _, rfl, ?_⟩
  exact ((substitute_refuses_capture tangled "x" _).2.2 _ rfl).2 (by decide +kernel)

end Pred

/-! ## Meaning -/

namespace Valuation

variable {ρ σ : Valuation I} {decls : List TypedName} {name : String}

/-- Different names get their values in any order. -/
theorem update_comm {x y : String} (hne : x ≠ y) (v w : Value I) :
    (ρ.update x v).update y w = (ρ.update y w).update x v := by
  funext z
  rw [update, update, update, update]
  by_cases hy : y = z
  · have hx : x ≠ z := fun hx => hne (hx.trans hy.symm)
    rw [if_pos hy, if_neg hx, if_pos hy]
  · rw [if_neg hy, if_neg hy]

/-- Values of declared names can be assigned before or after the value of a
    name that is not declared. -/
theorem assigns_update_iff (hne : ∀ d ∈ decls, d.name ≠ name) (v : Value I) :
    (ρ.update name v).Assigns decls σ ↔ ∃ τ, ρ.Assigns decls τ ∧ σ = τ.update name v := by
  -- the binders are assigned in turn; the updates commute past each of them
  induction decls generalizing ρ with
  | nil =>
      constructor
      · rintro rfl
        exact ⟨ρ, rfl, rfl⟩
      · rintro ⟨τ, rfl, rfl⟩
        rfl
  | cons d ds ih =>
      have hd : name ≠ d.name := (hne d List.mem_cons_self).symm
      have hds : ∀ e ∈ ds, e.name ≠ name := fun e he => hne e (List.mem_cons_of_mem _ he)
      constructor
      · rintro ⟨w, h⟩
        rw [update_comm hd] at h
        obtain ⟨τ, hτ, rfl⟩ := (ih hds).mp h
        exact ⟨τ, ⟨w, hτ⟩, rfl⟩
      · rintro ⟨τ, ⟨w, hτ⟩, rfl⟩
        refine ⟨w, ?_⟩
        rw [update_comm hd]
        exact (ih hds).mpr ⟨τ, hτ, rfl⟩

end Valuation

namespace Pred

variable {p q : Pred} {name : String} {value : Expr}

/-- The result is true where the old predicate is true with the value of the
    expression for the name. -/
theorem holds_substitute (h : p.substitute name value = some q) (ρ : Valuation I) :
    q.Holds ρ ↔ p.Holds (ρ.update name (value.value ρ)) := by
  induction p generalizing q ρ with
  | top | bottom =>
      cases h
      exact Iff.rfl
  | not inner ih =>
      obtain ⟨inner', hinner, rfl⟩ := Option.map_eq_some_iff.mp h
      exact not_congr (ih hinner ρ)
  | binary op left right ihl ihr =>
      obtain ⟨l, r, hl, hr, rfl⟩ := substitute_binary_eq_some.mp h
      rw [Holds, Holds, propext (ihl hl ρ), propext (ihr hr ρ)]
  | relation op left right =>
      cases h
      rw [Holds, Holds, Expr.value_substitute, Expr.value_substitute]
  | quantified quantifier decls body ih =>
      by_cases hfree : name ∈ (Pred.quantified quantifier decls body).freeList
      · obtain ⟨hnot, body', hbody', rfl⟩ := (substitute_quantified_eq_some hfree).mp h
        have hne := (TypeEnv.mem_freeList_quantified.mp hfree).2
        -- the declarations do not touch the value, so it may be taken outside
        have hbody : ∀ {τ : Valuation I}, ρ.Assigns decls τ →
            (body'.Holds τ ↔ body.Holds (τ.update name (value.value ρ))) := by
          intro τ hτ
          have hvalue : value.value τ = value.value ρ := by
            refine Expr.value_congr fun x hx => hτ.eq_of_ne fun d hd heq => ?_
            exact hnot d hd (heq ▸ hx)
          rw [ih hbody' τ, hvalue]
        cases quantifier with
        | universal =>
            constructor
            · intro hall σ hσ
              obtain ⟨τ, hτ, rfl⟩ := (Valuation.assigns_update_iff hne _).mp hσ
              exact (hbody hτ).mp (hall τ hτ)
            · intro hall τ hτ
              exact (hbody hτ).mpr (hall _ ((Valuation.assigns_update_iff hne _).mpr ⟨τ, hτ, rfl⟩))
        | existential =>
            constructor
            · rintro ⟨τ, hτ, hholds⟩
              exact ⟨_, (Valuation.assigns_update_iff hne _).mpr ⟨τ, hτ, rfl⟩, (hbody hτ).mp hholds⟩
            · rintro ⟨σ, hσ, hholds⟩
              obtain ⟨τ, hτ, rfl⟩ := (Valuation.assigns_update_iff hne _).mp hσ
              exact ⟨τ, hτ, (hbody hτ).mpr hholds⟩
      · -- nothing is replaced, and the value of the name does not matter
        rw [substitute_quantified_of_notMem hfree] at h
        cases h
        refine holds_congr fun x hx => ?_
        have hx' : name ≠ x := fun heq => hfree (heq ▸ hx)
        exact (if_neg hx').symm

/-- Substitution keeps the meaning of predicates and of expressions. -/
theorem substitute_keeps_meaning :
    (∀ (p q : Pred) (name : String) (value : Expr), p.substitute name value = some q →
      ∀ (I : Interpretation.{u}) (ρ : Valuation I),
        q.Holds ρ ↔ p.Holds (ρ.update name (value.value ρ))) ∧
      ∀ (e : Expr) (name : String) (value : Expr) (I : Interpretation.{u}) (ρ : Valuation I),
        (e.substitute name value).value ρ = e.value (ρ.update name (value.value ρ)) :=
  ⟨fun _ _ _ _ h _ ρ => holds_substitute h ρ, fun e name value _ ρ => e.value_substitute name value ρ⟩

/-- In `tangled` only the free one of three `x` changes. -/
theorem tangled_keeps_meaning :
    let value : Expr := .arith .add (.ident "x") (.ident "y")
    let q : Pred :=
      .binary .and
        (.quantified .existential [⟨"x", .integer⟩] (.relation .eq (.ident "x") (.ident "y")))
        (.quantified .universal [⟨"z", .integer⟩]
          (.binary .or (.relation .lt value (.ident "z"))
            (.quantified .existential [⟨"x", .integer⟩] (.relation .gt (.ident "x") (.ident "z")))))
    tangled.substitute "x" value = some q ∧
      ∀ (I : Interpretation.{u}) (ρ : Valuation I),
        q.Holds ρ ↔ tangled.Holds (ρ.update "x" (value.value ρ)) :=
  ⟨rfl, substitute_keeps_meaning.1 tangled _ "x" _ rfl⟩

end Pred

end SequentProver
