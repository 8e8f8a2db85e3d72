import SequentProver.Formula.Typing
import SequentProver.Proofs.Lookup

/-! # Environments

    An environment matters only through the types it gives to names.  What
    binding one name does to these types is said first, then what binding a
    list of names does: it succeeds on pairwise different unbound names
    (`exists_extend`, `fresh_of_extend`), and the names then have the types
    they would have as binders in scope (`typeOf?_extend`). -/

namespace SequentProver.TypeEnv

variable {env env' : TypeEnv}

/-! ## Binding -/

/-- A name is unbound when it has no type. -/
theorem binds_eq_false {x : String} : env.binds x = false ↔ env.typeOf? x = none := by
  rw [binds]
  cases env.typeOf? x with
  | none => exact ⟨fun _ => rfl, fun _ => rfl⟩
  | some ty => exact ⟨(nomatch ·), (nomatch ·)⟩

/-- A name is bound with the type that is looked up. -/
theorem bindsAs_eq_true {n : TypedName} :
    env.bindsAs n = true ↔ env.typeOf? n.name = some n.ty := by
  rw [bindsAs, decide_eq_true_iff]

/-- Types after one more binding. -/
theorem typeOf?_insert (env : TypeEnv) (n : TypedName) (x : String) :
    TypeEnv.typeOf? ⟨env.bindings.insert n⟩ x
      = if n.name = x then some n.ty else env.typeOf? x := by
  show ((env.bindings.insert n).find? x).map TypedName.ty = _
  rw [SortedBy.find?_insert]
  by_cases hx : n.name = x
  · rw [if_pos hx, if_pos hx]
    rfl
  · rw [if_neg hx, if_neg hx]
    rfl

/-- Binding succeeds on an unbound name only. -/
theorem bind_eq_ok {n : TypedName} :
    env.bind n = .ok env' ↔ env.typeOf? n.name = none ∧ env' = ⟨env.bindings.insert n⟩ := by
  rw [bind]
  cases hb : env.binds n.name with
  | false =>
      rw [if_neg Bool.false_ne_true]
      constructor
      · intro h
        exact ⟨binds_eq_false.mp hb, (Except.ok.inj h).symm⟩
      · rintro ⟨-, rfl⟩
        rfl
  | true =>
      rw [if_pos rfl]
      constructor
      · intro h
        exact nomatch h
      · rintro ⟨hnone, -⟩
        rw [binds_eq_false.mpr hnone] at hb
        exact nomatch hb

/-! ## Extending -/

@[simp] theorem extend_nil : env.extend [] = .ok env' ↔ env = env' := by
  rw [extend]
  exact ⟨Except.ok.inj, fun h => h ▸ rfl⟩

/-- Names are bound one after the other. -/
theorem extend_cons {n : TypedName} {rest : List TypedName} :
    env.extend (n :: rest) = .ok env' ↔
      ∃ mid, env.bind n = .ok mid ∧ mid.extend rest = .ok env' := by
  rw [extend]
  cases env.bind n with
  | error e =>
      constructor
      · intro h
        exact nomatch h
      · rintro ⟨mid, h, -⟩
        exact nomatch h
  | ok mid =>
      constructor
      · intro h
        exact ⟨mid, rfl, h⟩
      · rintro ⟨mid', hmid, h⟩
        cases hmid
        exact h

/-- Names can be bound in two goes. -/
theorem extend_append {ns ms : List TypedName} :
    env.extend (ns ++ ms) = .ok env' ↔
      ∃ mid, env.extend ns = .ok mid ∧ mid.extend ms = .ok env' := by
  -- on the first list, as names are bound from the front
  induction ns generalizing env with
  | nil =>
      constructor
      · intro h
        exact ⟨env, rfl, h⟩
      · rintro ⟨mid, hmid, h⟩
        cases extend_nil.mp hmid
        exact h
  | cons n ns ih =>
      rw [List.cons_append, extend_cons]
      constructor
      · rintro ⟨first, hfirst, h⟩
        obtain ⟨mid, hmid, hrest⟩ := ih.mp h
        exact ⟨mid, extend_cons.mpr ⟨first, hfirst, hmid⟩, hrest⟩
      · rintro ⟨mid, hmid, hrest⟩
        obtain ⟨first, hfirst, hmid⟩ := extend_cons.mp hmid
        exact ⟨first, hfirst, ih.mpr ⟨mid, hmid, hrest⟩⟩

/-- A scope with one more binder in front. -/
theorem typeInScope?_cons (env : TypeEnv) (n : TypedName) (scope : List TypedName) (x : String) :
    env.typeInScope? (n :: scope) x
      = if n.name = x then some n.ty else env.typeInScope? scope x := by
  rw [typeInScope?, List.find?_cons]
  by_cases hx : n.name = x
  · rw [decide_eq_true hx, if_pos hx]
  · rw [decide_eq_false hx, if_neg hx]
    rfl

@[simp] theorem typeInScope?_nil (env : TypeEnv) (x : String) :
    env.typeInScope? [] x = env.typeOf? x := rfl

/-- Names that are bound one after the other are unbound before and pairwise
    different. -/
theorem fresh_of_extend {ns : List TypedName} (h : env.extend ns = .ok env') :
    (ns.map TypedName.name).Nodup ∧ ∀ n ∈ ns, env.typeOf? n.name = none := by
  induction ns generalizing env with
  | nil => exact ⟨List.nodup_nil, fun n hn => nomatch hn⟩
  | cons n ns ih =>
      obtain ⟨mid, hbind, hrest⟩ := extend_cons.mp h
      obtain ⟨hnone, rfl⟩ := bind_eq_ok.mp hbind
      obtain ⟨hnodup, hfresh⟩ := ih hrest
      -- a later name is unbound after the first, hence is not the first
      have hlater : ∀ m ∈ ns, n.name ≠ m.name ∧ env.typeOf? m.name = none := by
        intro m hm
        have hm' := hfresh m hm
        rw [typeOf?_insert] at hm'
        by_cases heq : n.name = m.name
        · rw [if_pos heq] at hm'
          exact nomatch hm'
        · rw [if_neg heq] at hm'
          exact ⟨heq, hm'⟩
      constructor
      · rw [List.map_cons, List.nodup_cons]
        refine ⟨?_, hnodup⟩
        intro hmem
        obtain ⟨m, hm, heq⟩ := List.mem_map.mp hmem
        exact (hlater m hm).1 heq.symm
      · intro m hm
        rcases List.mem_cons.mp hm with rfl | hm
        · exact hnone
        · exact (hlater m hm).2

/-- Pairwise different unbound names can be bound. -/
theorem exists_extend {ns : List TypedName} (hnodup : (ns.map TypedName.name).Nodup)
    (hfresh : ∀ n ∈ ns, env.typeOf? n.name = none) : ∃ env', env.extend ns = .ok env' := by
  induction ns generalizing env with
  | nil => exact ⟨env, rfl⟩
  | cons n ns ih =>
      rw [List.map_cons, List.nodup_cons] at hnodup
      have hbind : env.bind n = .ok ⟨env.bindings.insert n⟩ :=
        bind_eq_ok.mpr ⟨hfresh n List.mem_cons_self, rfl⟩
      have hrest : ∀ m ∈ ns, TypeEnv.typeOf? ⟨env.bindings.insert n⟩ m.name = none := by
        intro m hm
        have hne : n.name ≠ m.name := by
          intro heq
          exact hnodup.1 (heq ▸ List.mem_map.mpr ⟨m, hm, rfl⟩)
        rw [typeOf?_insert, if_neg hne]
        exact hfresh m (List.mem_cons_of_mem _ hm)
      obtain ⟨env', henv'⟩ := ih hnodup.2 hrest
      exact ⟨env', extend_cons.mpr ⟨_, hbind, henv'⟩⟩

/-- An extended environment gives the types that its names have as binders
    in scope. -/
theorem typeOf?_extend {ns : List TypedName} (h : env.extend ns = .ok env') (x : String) :
    env'.typeOf? x = env.typeInScope? ns x := by
  induction ns generalizing env with
  | nil =>
      cases extend_nil.mp h
      rfl
  | cons n ns ih =>
      obtain ⟨mid, hbind, hrest⟩ := extend_cons.mp h
      obtain ⟨-, hfresh⟩ := fresh_of_extend hrest
      obtain ⟨-, rfl⟩ := bind_eq_ok.mp hbind
      rw [ih hrest, typeInScope?_cons, typeInScope?, typeInScope?]
      cases hfind : ns.find? fun d => d.name = x with
      | none => exact typeOf?_insert env n x
      | some d =>
          -- a later name differs from the first one
          have hd : d.name = x := by simpa using List.find?_some hfind
          have hnone := hfresh d (List.mem_of_find?_eq_some hfind)
          rw [typeOf?_insert] at hnone
          by_cases hx : n.name = x
          · rw [if_pos (hx.trans hd.symm)] at hnone
            exact nomatch hnone
          · rw [if_neg hx]

/-- Every binding of the first environment is one of the second. -/
def Extends (env env' : TypeEnv) : Prop :=
  ∀ x ty, env.typeOf? x = some ty → env'.typeOf? x = some ty

theorem Extends.refl (env : TypeEnv) : env.Extends env := fun _ _ h => h

theorem Extends.trans {env₁ env₂ env₃ : TypeEnv} (h : env₁.Extends env₂)
    (h' : env₂.Extends env₃) : env₁.Extends env₃ :=
  fun x ty hx => h' x ty (h x ty hx)

/-- Unbound in the larger environment, unbound in the smaller one. -/
theorem Extends.typeOf?_eq_none (h : env.Extends env') {x : String}
    (hx : env'.typeOf? x = none) : env.typeOf? x = none := by
  cases hty : env.typeOf? x with
  | none => rfl
  | some ty =>
      rw [h x ty hty] at hx
      exact nomatch hx

/-- A name outside the added ones keeps its type, or stays unbound. -/
theorem typeOf?_extend_of_ne {ns : List TypedName} (h : env.extend ns = .ok env') {x : String}
    (hx : ∀ n ∈ ns, n.name ≠ x) : env'.typeOf? x = env.typeOf? x := by
  have hfind : ns.find? (fun d => d.name = x) = none := by
    rw [List.find?_eq_none]
    intro d hd
    rw [decide_eq_true_iff]
    exact hx d hd
  rw [typeOf?_extend h, typeInScope?, hfind]

/-- An added name has its type. -/
theorem typeOf?_extend_of_mem {ns : List TypedName} (h : env.extend ns = .ok env')
    {n : TypedName} (hn : n ∈ ns) : env'.typeOf? n.name = some n.ty := by
  have hfind : ns.find? (fun d => d.name = n.name) = some n :=
    (find?_key_eq_some (fresh_of_extend h).1).mpr ⟨hn, rfl⟩
  rw [typeOf?_extend h, typeInScope?, hfind]

/-- The bindings of an extended environment. -/
theorem bindsAs_extend {ns : List TypedName} (h : env.extend ns = .ok env') {n : TypedName} :
    env'.bindsAs n = true ↔ env.bindsAs n = true ∨ n ∈ ns := by
  rw [bindsAs_eq_true, bindsAs_eq_true]
  -- a name is bound once, so the new binding is the one that is found
  by_cases hname : ∃ m ∈ ns, m.name = n.name
  · obtain ⟨m, hm, heq⟩ := hname
    rw [← heq, typeOf?_extend_of_mem h hm, (fresh_of_extend h).2 m hm]
    constructor
    · intro hty
      have hmn : m = n := by
        cases m
        cases n
        cases heq
        cases hty
        rfl
      exact .inr (hmn ▸ hm)
    · rintro (hnone | hn)
      · cases hnone
      · rw [← typeOf?_extend_of_mem h hn, ← heq, typeOf?_extend_of_mem h hm]
  · have hne : ∀ m ∈ ns, m.name ≠ n.name := by
      intro m hm heq
      exact hname ⟨m, hm, heq⟩
    rw [typeOf?_extend_of_ne h hne]
    exact ⟨.inl, fun hor => hor.resolve_right fun hn => hne n hn rfl⟩

/-- Extending only adds bindings. -/
theorem extends_of_extend {ns : List TypedName} (h : env.extend ns = .ok env') :
    env.Extends env' := by
  intro x ty hx
  rw [typeOf?_extend_of_ne h, hx]
  intro n hn heq
  rw [← heq, (fresh_of_extend h).2 n hn] at hx
  exact nomatch hx

end SequentProver.TypeEnv
