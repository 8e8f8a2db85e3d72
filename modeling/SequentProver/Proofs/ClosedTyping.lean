import SequentProver.Proofs.Substitution

/-! # Closed typing

    Closed typing looks names up and infers none.  Two consequences are stated
    here for whole predicates.

    The verdict depends on the free names only: environments that agree on them
    accept alike and complain alike, an accepted predicate has no unbound free
    name, and further bindings do no harm.

    Substitution keeps the verdict: where a name and an expression have the
    same type, the expression may take the name's place.  The binders that
    substitution passes declare neither the name nor a name of the expression,
    so both have the same type inside as outside; a binder that gives the name
    another type ends the search for its free occurrences. -/

namespace SequentProver.TypeEnv

variable {env : TypeEnv} {scope : List TypedName} {p q : Pred} {name : String} {value : Expr}
  {ty : Ty}

/-! ## Free names -/

/-- **The verdict depends on the free names only.**  Environments that agree
    on the free names of a predicate give the same verdict, with the same error.
    The free names of an accepted predicate are bound.  Binding more names
    changes nothing for a predicate that is accepted already. -/
theorem verdict_by_free_names (p : Pred) :
    (∀ env env' : TypeEnv, (∀ x ∈ p.freeNames, env.typeOf? x = env'.typeOf? x) →
      env.checkClosed p = env'.checkClosed p) ∧
    (∀ env : TypeEnv, env.checkClosed p = .ok () → ∀ x ∈ p.freeNames, env.binds x = true) ∧
    ∀ (env : TypeEnv) (ns : List TypedName), (ns.map TypedName.name).Nodup →
      (∀ n ∈ ns, env.binds n.name = false) → env.checkClosed p = .ok () →
        ∃ env', env.extend ns = .ok env' ∧ env'.checkClosed p = .ok () := by
  refine ⟨?_, ?_, ?_⟩
  · intro env env' hagree
    exact checkIn_congr fun x hx => hagree x (SortedSet.mem_ofList.mpr hx)
  · intro env hcheck x hx
    exact isSome_of_checkIn hcheck (SortedSet.mem_ofList.mp hx)
  · intro env ns hnodup hunbound hcheck
    obtain ⟨env', henv'⟩ := exists_extend hnodup fun n hn => binds_eq_false.mp (hunbound n hn)
    refine ⟨env', henv', ?_⟩
    have haccepts := accepts_of_extends (extends_of_extend henv') (accepts_iff.mpr hcheck)
    exact accepts_iff.mp haccepts

/-- `b` is an integer inside and a truth value outside. -/
def masking : Pred :=
  .binary .and
    (.quantified .universal [⟨"b", .integer⟩] (.relation .gt (.ident "b") (.ident "x")))
    (.relation .eq (.ident "b") (.bool true))

/-- `masking` is accepted, also with `a` bound; it is refused alike by all
    environments that bind `x` and `b` to integers. -/
theorem masking_verdicts :
    let env : TypeEnv := ⟨SortedBy.ofList [⟨"b", .boolean⟩, ⟨"x", .integer⟩]⟩
    let plain : TypeEnv := ⟨SortedBy.ofList [⟨"b", .integer⟩, ⟨"x", .integer⟩]⟩
    let wide : TypeEnv := ⟨SortedBy.ofList [⟨"a", .boolean⟩, ⟨"b", .integer⟩, ⟨"x", .integer⟩]⟩
    env.binds "b" = true ∧
      (∃ env', env.extend [⟨"a", .integer⟩] = .ok env' ∧ env'.checkClosed masking = .ok ()) ∧
      plain.checkClosed masking = .error (.typeMismatch .equality .integer .boolean) ∧
      wide.checkClosed masking = .error (.typeMismatch .equality .integer .boolean) := by
  intro env plain wide
  obtain ⟨hcongr, hbound, hextend⟩ := verdict_by_free_names masking
  have haccepted : env.checkClosed masking = .ok () := by decide +kernel
  have hrefused : plain.checkClosed masking =
      .error (.typeMismatch .equality .integer .boolean) := by decide +kernel
  have hagree : ∀ x ∈ masking.freeList, plain.typeOf? x = wide.typeOf? x := by decide +kernel
  refine ⟨hbound env haccepted "b" ?_, ?_, hrefused, ?_⟩
  · exact SortedSet.mem_ofList.mpr (by decide +kernel)
  · exact hextend env [⟨"a", .integer⟩] (by decide) (by decide +kernel) haccepted
  · rw [← hrefused]
    exact (hcongr plain wide fun x hx => hagree x (SortedSet.mem_ofList.mp hx)).symm

/-! ## Substitution -/

/-- An expression with the type of a name takes its place in an expression
    without any change of type, or of error. -/
theorem infer_substitute (hname : env.typeInScope? scope name = some ty)
    (hvalue : env.infer scope value = .ok ty) (e : Expr) :
    env.infer scope (e.substitute name value) = env.infer scope e := by
  induction e with
  | ident n =>
      rw [Expr.substitute]
      by_cases hn : n = name
      · subst hn
        rw [if_pos rfl, hvalue, infer, hname]
      · rw [if_neg hn]
  | integer k => rfl
  | bool b => rfl
  | neg inner ih => rw [Expr.substitute, infer, infer, ih]
  | arith op left right ihl ihr => rw [Expr.substitute, infer, infer, ihl, ihr]

/-- So it does in a predicate: the verdict is the same, error included. -/
theorem checkIn_substitute (hname : env.typeInScope? scope name = some ty)
    (hvalue : env.infer scope value = .ok ty) (h : p.substitute name value = some q) :
    env.checkIn scope q = env.checkIn scope p := by
  induction p generalizing scope q with
  | top | bottom =>
      cases h
      rfl
  | not inner ih =>
      obtain ⟨inner', hinner, rfl⟩ := Option.map_eq_some_iff.mp h
      rw [checkIn, checkIn, ih hname hvalue hinner]
  | binary op left right ihl ihr =>
      obtain ⟨l, r, hl, hr, rfl⟩ := Pred.substitute_binary_eq_some.mp h
      rw [checkIn, checkIn, ihl hname hvalue hl, ihr hname hvalue hr]
  | relation op left right =>
      cases h
      rw [checkIn, checkIn, infer_substitute hname hvalue, infer_substitute hname hvalue]
  | quantified quantifier decls body ih =>
      by_cases hfree : name ∈ (Pred.quantified quantifier decls body).freeList
      · obtain ⟨hnot, body', hbody', rfl⟩ := (Pred.substitute_quantified_eq_some hfree).mp h
        obtain ⟨-, hne⟩ := mem_freeList_quantified.mp hfree
        -- nothing that is declared here is the name or a name of the value
        have hname' : env.typeInScope? (decls.reverse ++ scope) name = some ty := by
          rw [typeInScope?_append_of_ne fun d hd => hne d (List.mem_reverse.mp hd), hname]
        have hvalue' : env.infer (decls.reverse ++ scope) value = .ok ty := by
          rw [← hvalue]
          refine infer_congr fun x hx => typeInScope?_append_of_ne ?_
          rintro d hd rfl
          exact hnot d (List.mem_reverse.mp hd) hx
        rw [checkIn, checkIn, ih hname' hvalue' hbody']
      · rw [Pred.substitute_quantified_of_notMem hfree] at h
        cases h
        rfl

/-- A name may be equated with what has its type. -/
theorem checkClosed_ident_eq :
    env.checkClosed (.relation .eq (.ident name) value) = .ok () ↔
      ∃ ty, env.typeOf? name = some ty ∧ env.infer [] value = .ok ty := by
  have hcheck : env.checkClosed (.relation .eq (.ident name) value) =
      (env.infer [] (.ident name) >>= fun l => env.infer [] value >>= fun r =>
        require .equality l r) := rfl
  rw [hcheck, infer, typeInScope?_nil]
  -- the name is typed first, so an unknown one is an error whatever the value is
  cases env.typeOf? name with
  | none =>
      constructor
      · intro h
        cases h
      · rintro ⟨ty, hty, -⟩
        cases hty
  | some ty =>
      show (env.infer [] value >>= fun r => require .equality ty r) = .ok () ↔ _
      rw [bind_eq_ok_iff]
      constructor
      · rintro ⟨r, hr, hrequire⟩
        rw [require] at hrequire
        split at hrequire
        · rename_i heq
          exact ⟨ty, rfl, heq ▸ hr⟩
        · cases hrequire
      · rintro ⟨ty', hty, hvalue⟩
        cases hty
        exact ⟨ty, hvalue, if_pos rfl⟩

/-- The environment without the binding of a name. -/
def without (env : TypeEnv) (name : String) : TypeEnv :=
  ⟨env.bindings.filter fun n => n.name ≠ name⟩

/-- Without a name the others are bound as before. -/
theorem typeOf?_without (env : TypeEnv) (name x : String) :
    (env.without name).typeOf? x = if x = name then none else env.typeOf? x := by
  show ((env.bindings.toList.filter fun n => n.name ≠ name).find? fun n => n.name = x).map
    TypedName.ty = _
  rw [List.find?_filter]
  by_cases hx : x = name
  · rw [if_pos hx, Option.map_eq_none_iff, List.find?_eq_none]
    intro n _
    by_cases hn : n.name = name
    · simp [hn]
    · simp [hn, hx]
  · rw [if_neg hx]
    show _ = (env.bindings.toList.find? fun n => n.name = x).map TypedName.ty
    congr 2
    funext n
    by_cases hn : n.name = x
    · simp [hn, hx]
    · simp [hn]

/-- **Substitution keeps closed typing.**  Where a predicate and the equality
    of a name with a value are accepted, the name is bound with the type of
    the value, and what results from the substitution is accepted as well.  If
    the value does not mention the name, the binding is no longer needed. -/
theorem substitute_keeps_typing (hp : env.checkClosed p = .ok ())
    (heq : env.checkClosed (.relation .eq (.ident name) value) = .ok ())
    (hq : p.substitute name value = some q) :
    (∃ ty, env.typeOf? name = some ty ∧ env.infer [] value = .ok ty) ∧
      env.checkClosed q = .ok () ∧
      (name ∉ value.names → (env.without name).checkClosed q = .ok ()) := by
  obtain ⟨ty, hname, hvalue⟩ := checkClosed_ident_eq.mp heq
  have hname' : env.typeInScope? [] name = some ty := hname
  have hkept : env.checkClosed q = .ok () := (checkIn_substitute hname' hvalue hq).trans hp
  refine ⟨⟨ty, hname, hvalue⟩, hkept, ?_⟩
  intro hnot
  rw [← hkept]
  refine checkIn_congr fun x hx => ?_
  -- the name is not free in the result, so its binding does not matter
  have hx' : x ≠ name := by
    rintro rfl
    rcases (Pred.mem_freeList_substitute hq).mp hx with ⟨-, hne⟩ | ⟨-, hvalue⟩
    · exact hne rfl
    · exact hnot (SortedSet.mem_ofList.mpr hvalue)
  show (env.without name).typeOf? x = env.typeOf? x
  rw [typeOf?_without, if_neg hx']

/-- `x` is an integer under `∀z`, and a truth value under `∃x`. -/
def retyped : Pred :=
  .quantified .universal [⟨"z", .integer⟩]
    (.binary .or (.relation .lt (.ident "x") (.ident "z"))
      (.quantified .existential [⟨"x", .boolean⟩] (.relation .eq (.ident "x") (.bool true))))

/-- Into `retyped` goes `y + 1` for `x`, which then needs no binding. -/
theorem retyped_keeps_typing :
    let env : TypeEnv := ⟨SortedBy.ofList [⟨"x", .integer⟩, ⟨"y", .integer⟩]⟩
    let value : Expr := .arith .add (.ident "y") (.integer 1)
    let q : Pred := .quantified .universal [⟨"z", .integer⟩]
      (.binary .or (.relation .lt value (.ident "z"))
        (.quantified .existential [⟨"x", .boolean⟩] (.relation .eq (.ident "x") (.bool true))))
    retyped.substitute "x" value = some q ∧ env.checkClosed q = .ok () ∧
      (env.without "x").checkClosed q = .ok () ∧ (env.without "x").binds "x" = false := by
  intro env value q
  have hq : retyped.substitute "x" value = some q := rfl
  have hp : env.checkClosed retyped = .ok () := by decide +kernel
  have heq : env.checkClosed (.relation .eq (.ident "x") value) = .ok () := by decide +kernel
  obtain ⟨-, hkept, hbare⟩ := substitute_keeps_typing hp heq hq
  exact ⟨hq, hkept, hbare (by decide +kernel), by decide +kernel⟩

end SequentProver.TypeEnv
