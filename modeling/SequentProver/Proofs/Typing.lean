import SequentProver.Proofs.Environment

/-! # Typing and free names

    Typing looks at nothing but the types of the free names
    (`checkIn_congr`), and has found a type for each of them
    (`isSome_of_checkIn`).  So what an environment accepts is accepted by
    every larger one (`accepts_of_extends`), and the body of a quantifier
    is accepted once its names are bound (`accepts_body`). -/

namespace SequentProver

/-- A sequence of two checks succeeds when both do. -/
theorem bind_eq_ok_iff {ε α β : Type} {x : Except ε α} {f : α → Except ε β} {b : β} :
    (x >>= f) = .ok b ↔ ∃ a, x = .ok a ∧ f a = .ok b := by
  cases x with
  | error e =>
      constructor
      · intro h
        exact nomatch h
      · rintro ⟨a, h, -⟩
        exact nomatch h
  | ok a =>
      constructor
      · intro h
        exact ⟨a, rfl, h⟩
      · rintro ⟨a', h, hf⟩
        cases h
        exact hf

namespace TypeEnv

variable {env env' : TypeEnv}

/-! ## Scopes -/

/-- Under the binders of `ds`, in front of two scopes, names have the same
    types as soon as those that `ds` does not declare have. -/
theorem typeInScope?_append_congr {ds scope scope' : List TypedName} {x : String}
    (h : (∀ d ∈ ds, d.name ≠ x) → env.typeInScope? scope x = env'.typeInScope? scope' x) :
    env.typeInScope? (ds ++ scope) x = env'.typeInScope? (ds ++ scope') x := by
  induction ds with
  | nil => exact h fun d hd => nomatch hd
  | cons d ds ih =>
      rw [List.cons_append, List.cons_append, typeInScope?_cons, typeInScope?_cons]
      by_cases hd : d.name = x
      · rw [if_pos hd, if_pos hd]
      · rw [if_neg hd, if_neg hd]
        refine ih fun hds => h ?_
        intro d' hd'
        rcases List.mem_cons.mp hd' with rfl | hd'
        · exact hd
        · exact hds d' hd'

/-- Binders of other names do not change the type of a name. -/
theorem typeInScope?_append_of_ne {ds scope : List TypedName} {x : String}
    (h : ∀ d ∈ ds, d.name ≠ x) :
    env.typeInScope? (ds ++ scope) x = env.typeInScope? scope x := by
  have hnone : ds.find? (fun d => d.name = x) = none := by
    rw [List.find?_eq_none]
    intro d hd
    rw [decide_eq_true_iff]
    exact h d hd
  rw [typeInScope?, typeInScope?, List.find?_append, hnone, Option.none_or]

/-- Where declared names do not repeat, the order of the binders does not
    matter. -/
theorem typeInScope?_reverse {ds : List TypedName} (hds : (ds.map TypedName.name).Nodup)
    (x : String) : env.typeInScope? ds.reverse x = env.typeInScope? ds x := by
  have hrev : (ds.reverse.map TypedName.name).Nodup := by
    rw [List.map_reverse, List.nodup_reverse]
    exact hds
  have hfind : ds.reverse.find? (fun d => d.name = x) = ds.find? (fun d => d.name = x) := by
    apply Option.ext
    intro d
    rw [find?_key_eq_some hrev, find?_key_eq_some hds, List.mem_reverse]
  rw [typeInScope?, typeInScope?, hfind]

/-! ## Free names -/

/-- What is free in a quantified predicate is free in its body and not
    declared. -/
theorem mem_freeList_quantified {q : Quantifier} {ds : List TypedName} {body : Pred}
    {x : String} :
    x ∈ (Pred.quantified q ds body).freeList ↔ x ∈ body.freeList ∧ ∀ d ∈ ds, d.name ≠ x := by
  rw [Pred.freeList, List.mem_filter, Bool.not_eq_true', List.any_eq_false]
  refine and_congr_right fun _ => ?_
  constructor
  · intro h d hd hx
    exact h d hd (decide_eq_true hx)
  · intro h d hd hx
    exact h d hd (of_decide_eq_true hx)

/-- The type of an expression depends only on the types of its names. -/
theorem infer_congr {scope scope' : List TypedName} {e : Expr}
    (h : ∀ x ∈ e.nameList, env.typeInScope? scope x = env'.typeInScope? scope' x) :
    env.infer scope e = env'.infer scope' e := by
  induction e with
  | ident name => rw [infer, infer, h name List.mem_cons_self]
  | integer value => rfl
  | bool value => rfl
  | neg inner ih => rw [infer, infer, ih h]
  | arith op left right ihl ihr =>
      have hl := ihl fun x hx => h x (List.mem_append.mpr (Or.inl hx))
      have hr := ihr fun x hx => h x (List.mem_append.mpr (Or.inr hx))
      rw [infer, infer, hl, hr]

/-- The verdict on a predicate, and the error if there is one, depends only
    on the types of its free names. -/
theorem checkIn_congr {scope scope' : List TypedName} {p : Pred}
    (h : ∀ x ∈ p.freeList, env.typeInScope? scope x = env'.typeInScope? scope' x) :
    env.checkIn scope p = env'.checkIn scope' p := by
  induction p generalizing scope scope' with
  | top => rfl
  | bottom => rfl
  | not inner ih => exact ih h
  | binary op left right ihl ihr =>
      have hl := ihl fun x hx => h x (List.mem_append.mpr (Or.inl hx))
      have hr := ihr fun x hx => h x (List.mem_append.mpr (Or.inr hx))
      rw [checkIn, checkIn, hl, hr]
  | relation op left right =>
      have hl := infer_congr fun x hx => h x (List.mem_append.mpr (Or.inl hx))
      have hr := infer_congr fun x hx => h x (List.mem_append.mpr (Or.inr hx))
      rw [checkIn, checkIn, hl, hr]
  | quantified q ds body ih =>
      have hbody : env.checkIn (ds.reverse ++ scope) body
          = env'.checkIn (ds.reverse ++ scope') body := by
        -- a declared name is typed by its declaration, whatever stands outside
        refine ih fun x hx => typeInScope?_append_congr fun hds => ?_
        refine h x (mem_freeList_quantified.mpr ⟨hx, fun d hd => ?_⟩)
        exact hds d (List.mem_reverse.mpr hd)
      rw [checkIn, checkIn, hbody]

/-- An expression that has a type mentions only names that have one. -/
theorem isSome_of_infer {scope : List TypedName} {e : Expr} {ty : Ty}
    (h : env.infer scope e = .ok ty) {x : String} (hx : x ∈ e.nameList) :
    (env.typeInScope? scope x).isSome := by
  induction e generalizing ty with
  | ident name =>
      cases List.mem_singleton.mp hx
      rw [infer] at h
      cases hty : env.typeInScope? scope x with
      | some ty' => rfl
      | none =>
          rw [hty] at h
          exact nomatch h
  | integer value => exact nomatch hx
  | bool value => exact nomatch hx
  | neg inner ih =>
      obtain ⟨ty', hty', -⟩ := bind_eq_ok_iff.mp h
      exact ih hty' hx
  -- the left operand is checked before the right one is typed
  | arith op left right ihl ihr =>
      obtain ⟨l, hl, h⟩ := bind_eq_ok_iff.mp h
      obtain ⟨-, -, h⟩ := bind_eq_ok_iff.mp h
      obtain ⟨r, hr, -⟩ := bind_eq_ok_iff.mp h
      rcases List.mem_append.mp hx with hx | hx
      · exact ihl hl hx
      · exact ihr hr hx

/-- A predicate that type-checks has only free names that have a type. -/
theorem isSome_of_checkIn {scope : List TypedName} {p : Pred}
    (h : env.checkIn scope p = .ok ()) {x : String} (hx : x ∈ p.freeList) :
    (env.typeInScope? scope x).isSome := by
  induction p generalizing scope with
  | top => exact nomatch hx
  | bottom => exact nomatch hx
  | not inner ih => exact ih h hx
  | binary op left right ihl ihr =>
      obtain ⟨_, hl, hr⟩ := bind_eq_ok_iff.mp h
      rcases List.mem_append.mp hx with hx | hx
      · exact ihl hl hx
      · exact ihr hr hx
  | relation op left right =>
      obtain ⟨l, hl, h⟩ := bind_eq_ok_iff.mp h
      obtain ⟨r, hr, -⟩ := bind_eq_ok_iff.mp h
      rcases List.mem_append.mp hx with hx | hx
      · exact isSome_of_infer hl hx
      · exact isSome_of_infer hr hx
  | quantified q ds body ih =>
      obtain ⟨hx, hds⟩ := mem_freeList_quantified.mp hx
      obtain ⟨-, -, hbody⟩ := bind_eq_ok_iff.mp h
      have hsome := ih hbody hx
      -- the binders in front do not declare the name
      rw [typeInScope?_append_of_ne fun d hd => hds d (List.mem_reverse.mp hd)] at hsome
      exact hsome

/-! ## Acceptance -/

/-- A predicate is accepted if it type-checks outside of all scopes. -/
theorem accepts_iff {p : Pred} : env.accepts p = true ↔ env.checkIn [] p = .ok () := by
  rw [accepts, checkClosed]
  cases env.checkIn [] p with
  | error e => exact ⟨(nomatch ·), (nomatch ·)⟩
  | ok u => exact ⟨fun _ => rfl, fun _ => rfl⟩

/-- Environments that agree on the free names accept the same. -/
theorem accepts_congr {p : Pred} (h : ∀ x ∈ p.freeList, env.typeOf? x = env'.typeOf? x) :
    env.accepts p = env'.accepts p := by
  have hcheck : env.checkIn [] p = env'.checkIn [] p := checkIn_congr h
  rw [accepts, accepts, checkClosed, checkClosed, hcheck]

/-- The free names of an accepted predicate are bound. -/
theorem typeOf?_of_accepts {p : Pred} (h : env.accepts p = true) {x : String}
    (hx : x ∈ p.freeList) : ∃ ty, env.typeOf? x = some ty :=
  Option.isSome_iff_exists.mp (isSome_of_checkIn (accepts_iff.mp h) hx)

/-- More bindings do no harm. -/
theorem accepts_of_extends {p : Pred} (hext : env.Extends env') (h : env.accepts p = true) :
    env'.accepts p = true := by
  rw [← h]
  refine accepts_congr fun x hx => ?_
  obtain ⟨ty, hty⟩ := typeOf?_of_accepts h hx
  rw [hty, hext x ty hty]

/-- Both operands of an accepted predicate are accepted. -/
theorem accepts_binary {op : Connective} {left right : Pred} :
    env.accepts (.binary op left right) = true ↔
      env.accepts left = true ∧ env.accepts right = true := by
  rw [accepts_iff, accepts_iff, accepts_iff, checkIn, bind_eq_ok_iff]
  constructor
  · rintro ⟨_, hl, hr⟩
    exact ⟨hl, hr⟩
  · rintro ⟨hl, hr⟩
    exact ⟨(), hl, hr⟩

/-- The body of an accepted quantifier is accepted once its names are
    bound. -/
theorem accepts_body {q : Quantifier} {ds : List TypedName} {body : Pred}
    (h : env.accepts (.quantified q ds body) = true) (hext : env.extend ds = .ok env') :
    env'.accepts body = true := by
  obtain ⟨-, -, hbody⟩ := bind_eq_ok_iff.mp (accepts_iff.mp h)
  rw [accepts_iff, ← hbody]
  refine checkIn_congr fun x _ => ?_
  rw [typeInScope?_nil, List.append_nil, typeInScope?_reverse (fresh_of_extend hext).1,
    typeOf?_extend hext]

/-! ## Typed free names -/

/-- The typed free names of a predicate are its bound, validly named free
    names. -/
theorem mem_freeIdents {p : Pred} {n : TypedName} :
    n ∈ env.freeIdents p ↔
      n.name ∈ p.freeList ∧ isValidName n.name = true ∧ env.typeOf? n.name = some n.ty := by
  rw [freeIdents, SortedSet.mem_ofList, List.mem_filterMap]
  constructor
  · rintro ⟨x, hx, hn⟩
    have hfree : x ∈ p.freeList := SortedSet.mem_ofList.mp hx
    by_cases hvalid : isValidName x = true
    · rw [if_pos hvalid] at hn
      obtain ⟨ty, hty, rfl⟩ := Option.map_eq_some_iff.mp hn
      exact ⟨hfree, hvalid, hty⟩
    · rw [if_neg hvalid] at hn
      exact nomatch hn
  · rintro ⟨hfree, hvalid, hty⟩
    refine ⟨n.name, SortedSet.mem_ofList.mpr hfree, ?_⟩
    rw [if_pos hvalid, hty]
    rfl

/-- The free names with their types depend on the types of these names only. -/
theorem freeIdents_congr {p : Pred}
    (h : ∀ x ∈ p.freeList, isValidName x = true → env.typeOf? x = env'.typeOf? x) :
    env.freeIdents p = env'.freeIdents p := by
  refine congrArg SortedBy.ofList (List.filterMap_congr fun x hx => ?_)
  have hfree : x ∈ p.freeList := SortedSet.mem_ofList.mp hx
  by_cases hvalid : isValidName x = true
  · rw [if_pos hvalid, if_pos hvalid, h x hfree hvalid]
  · rw [if_neg hvalid, if_neg hvalid]

end TypeEnv

end SequentProver
