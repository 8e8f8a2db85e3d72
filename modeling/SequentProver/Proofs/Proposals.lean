import SequentProver.Proofs.BuiltinRules
import SequentProver.Proofs.ChildSequent
import SequentProver.Proofs.Standings

/-! # What the builtin reasoners propose applies

    A builtin reasoner looks at a sequent and proposes a rule for it.  The rule
    is checked again when it is applied, and then goes through, with one
    exception that is foreseen: a universal goal one of whose names is bound
    already.  The children are what one expects of the connective, down to
    origin and standing of every hypothesis.

    An existential hypothesis is the odd one.  Its names are bound by an
    inference and not by the antecedent, so they are bound only if the
    inference takes effect: if the body is a hypothesis already, only the
    existential one is hidden.

    Route:
    1. `Child`, a child told by its `Difference` from the sequent;
    2. the difference that an antecedent, a replacement and an inference make;
    3. `Splits`, the children each reasoner promises, and that they come. -/

namespace SequentProver

namespace SortedSet

variable {α : Type} [Ord α] [Std.TransOrd α] [Std.LawfulEqOrd α] {a x : α}

theorem mem_singleton : x ∈ (SortedBy.ofList [a] : SortedSet α) ↔ x = a :=
  mem_ofList.trans List.mem_singleton

/-- For all elements of a set of one. -/
theorem forall_mem_singleton {P : α → Prop} :
    (∀ x ∈ (SortedBy.ofList [a] : SortedSet α), P x) ↔ P a := by
  simp only [mem_singleton, forall_eq]

end SortedSet

/-! ## Declarations that can be bound -/

namespace TypeEnv

variable {env : TypeEnv} {ds : List TypedName}

/-- Checked declarations do not repeat names. -/
theorem nodup_of_checkDeclarations {seen : List String}
    (h : checkDeclarations seen ds = .ok ()) :
    (ds.map TypedName.name).Nodup ∧ ∀ d ∈ ds, d.name ∉ seen := by
  -- the names that were seen grow along the list
  induction ds generalizing seen with
  | nil => exact ⟨List.nodup_nil, fun d hd => absurd hd List.not_mem_nil⟩
  | cons d ds ih =>
      rw [checkDeclarations] at h
      split at h
      · cases h
      · split at h
        · cases h
        · rename_i hseen
          obtain ⟨hnodup, hnew⟩ := ih h
          constructor
          · rw [List.map_cons, List.nodup_cons]
            refine ⟨?_, hnodup⟩
            intro hmem
            obtain ⟨e, he, heq⟩ := List.mem_map.mp hmem
            exact hnew e he (heq ▸ List.mem_cons_self)
          · intro e he
            rcases List.mem_cons.mp he with rfl | he
            · exact fun hmem => hseen (List.contains_iff_mem.mpr hmem)
            · exact fun hmem => hnew e he (List.mem_cons_of_mem _ hmem)

/-- The declarations of an accepted quantifier can be bound unless one of the
    names is bound already. -/
theorem exists_extend_of_accepts {q : Quantifier} {body : Pred}
    (h : env.accepts (.quantified q ds body) = true)
    (hfresh : ∀ d ∈ ds, env.binds d.name = false) : ∃ env', env.extend ds = .ok env' := by
  obtain ⟨_, hdecls, -⟩ := bind_eq_ok_iff.mp (accepts_iff.mp h)
  exact exists_extend (nodup_of_checkDeclarations hdecls).1
    fun d hd => binds_eq_false.mp (hfresh d hd)

end TypeEnv

/-! ## Differences -/

/-- What sets a child apart from the sequent it comes from. -/
structure Difference where
  goal : Pred
  names : List TypedName := []
  added : SortedSet Pred := ∅
  /-- How the added hypotheses stand. -/
  standing : Standing := .selected
  hidden : SortedSet Pred := ∅

namespace Sequent

variable {s t : Sequent} {p : Pred}

/-- `t` differs from `s` as told, and in nothing else. -/
structure Child (s : Sequent) (d : Difference) (t : Sequent) : Prop where
  goal : t.goal = d.goal
  /-- The names can be bound in `s`, and then the environment is that of `t`. -/
  env : s.env.extend d.names = .ok t.env
  bindings : ∀ n : TypedName, t.env.bindsAs n = true ↔ s.env.bindsAs n = true ∨ n ∈ d.names
  hypotheses : ∀ p, p ∈ t.hypotheses ↔ p ∈ s.hypotheses ∨ p ∈ d.added
  added : ∀ p ∈ d.added, t.stands d.standing p = true
  hidden : ∀ p ∈ d.hidden, t.stands .hidden p = true
  kept : ∀ p, p ∉ d.added → p ∉ d.hidden → t.hypothesis? p = s.hypothesis? p

/-- A sequent that has grown is a child, once the standings are known. -/
theorem Child.of_grows {d : Difference} (h : s.Grows d.names d.added.toList t)
    (hgoal : d.goal = s.goal) (added : ∀ p ∈ d.added, t.stands d.standing p = true)
    (hidden : ∀ p ∈ d.hidden, t.stands .hidden p = true)
    (kept : ∀ p, p ∉ d.added → p ∉ d.hidden → t.hypothesis? p = s.hypothesis? p) :
    s.Child d t where
  goal := h.goal.trans hgoal.symm
  env := h.env
  bindings _ := TypeEnv.bindsAs_extend h.env
  hypotheses p := by
    rw [mem_hypotheses, mem_hypotheses]
    exact h.has p
  added := added
  hidden := hidden
  kept := kept

/-! ## Replacements and inferences -/

/-- What a forward inference leaves: the new hypotheses stand as their sources
    make them, and no entry changes. -/
theorem entries_forwardInfer {sources ps : List Pred} {ns : List TypedName}
    (h : s.forwardInfer sources ns ps = some t) :
    (∀ p ∈ ps, s.has p = false → t.stands (s.inferredStanding sources) p = true) ∧
      ∀ p, p ∉ ps → t.hypothesis? p = s.hypothesis? p := by
  rw [forwardInfer] at h
  cases hbound : s.addIdents ns with
  | none =>
      rw [hbound] at h
      cases h
  | some bound =>
      rw [hbound] at h
      obtain ⟨env, -, rfl⟩ := addIdents_eq_some.mp hbound
      simp only at h
      -- only a typed inference is executed; the other branch gives no sequent
      split at h
      · cases h
        constructor
        · intro p hp hnew
          refine stands_derive (List.mem_filter.mpr ⟨hp, ?_⟩) hnew
          rw [Bool.not_eq_true']
          exact hnew
        · intro p hp
          exact hypothesis?_derive_of_notMem fun hmem => hp (List.mem_filter.mp hmem).1
      · cases h

/-- Hypotheses that give way to others are hidden, and the others selected,
    whether or not they are new. -/
theorem child_replace {sources replacement : SortedSet Pred}
    (hsources : ∀ p ∈ sources, s.has p = true)
    (haccepted : ∀ p ∈ replacement, s.env.accepts p = true)
    (hapart : ∀ p ∈ replacement, p ∉ sources) :
    s.Child { goal := s.goal, added := replacement, hidden := sources }
      ((Action.replace sources replacement sources).execute s).sequent := by
  -- before the marks the replacement is there, and nothing else has changed
  obtain ⟨u, hu, hgrows, hkept⟩ : ∃ u,
      ((Action.replace sources replacement sources).execute s).sequent =
        (u.mark .select replacement.toList).mark .hide (SortedSet.inter sources sources).toList ∧
      s.Grows [] replacement.toList u ∧
      ∀ p, p ∉ replacement → u.hypothesis? p = s.hypothesis? p := by
    have hall : s.hasAll sources.toList = true := hasAll_iff.mpr hsources
    rw [Action.execute, performReplace]
    by_cases hthere : s.hasAll replacement.toList = true
    · refine ⟨s, ?_, ⟨rfl, rfl, ?_⟩, fun p _ => rfl⟩
      · simp only [hall, hthere, Bool.not_true, Bool.false_eq_true, if_false, if_true]
      · intro p
        exact ⟨Or.inl, fun h => h.elim id (hasAll_iff.mp hthere p)⟩
    · have hnil : s.env.extend [] = .ok s.env := rfl
      obtain ⟨u, hu⟩ := exists_forwardInfer sources.toList hnil haccepted
      refine ⟨u, ?_, (grows_forwardInfer hu).1, (entries_forwardInfer hu).2⟩
      simp only [hall, hthere, hu, Bool.not_true, Bool.false_eq_true, if_false]
  have hinter : ∀ p, p ∈ (SortedSet.inter sources sources).toList ↔ p ∈ sources := by
    intro p
    exact SortedSet.mem_inter.trans (and_self_iff)
  rw [hu]
  refine .of_grows ((hgrows.mark _ _).mark _ _) rfl ?_ ?_ ?_
  · intro p hp
    rw [stands_mark_of_notMem fun hmem => hapart p hp ((hinter p).mp hmem)]
    exact stands_mark (fun _ => rfl) hp ((hgrows.has p).mpr (Or.inr hp))
  · intro p hp
    refine stands_mark (fun _ => rfl) ((hinter p).mpr hp) ?_
    rw [has_mark]
    exact (hgrows.has p).mpr (Or.inl (hsources p hp))
  · intro p hadded hhidden
    rw [hypothesis?_mark_of_notMem fun hmem => hhidden ((hinter p).mp hmem),
      hypothesis?_mark_of_notMem hadded, hkept p hadded]

/-- From `∃x·p` follows `p` with `x` bound, if `p` is new. -/
theorem child_infer {ds : List TypedName} {body : Pred} {source : SortedSet Pred} (hs : s.WellTyped)
    (hsource : source = SortedBy.ofList [.quantified .existential ds body])
    (hhas : s.has (.quantified .existential ds body) = true)
    (hfresh : ∀ d ∈ ds, s.env.binds d.name = false) (hnew : s.has body = false) :
    s.Child { goal := s.goal, names := ds, added := SortedBy.ofList [body],
              standing := s.inferredStanding source.toList, hidden := source }
      (((Action.infer source ds (SortedBy.ofList [body])).execute s).sequent.mark .hide
        source.toList) := by
  have hsources : ∀ p ∈ source, s.has p = true := by
    intro p hp
    rw [hsource, SortedSet.mem_singleton] at hp
    exact hp ▸ hhas
  have haccepts := hs.hyps _ hhas
  -- the names of the quantifier extend the environment, for they are fresh
  obtain ⟨env, henv⟩ := TypeEnv.exists_extend_of_accepts haccepts hfresh
  have hbody : ∀ p ∈ (SortedBy.ofList [body] : SortedSet Pred).toList, env.accepts p = true := by
    intro p hp
    rw [SortedSet.mem_singleton.mp hp]
    exact TypeEnv.accepts_body haccepts henv
  obtain ⟨t, ht⟩ := exists_forwardInfer source.toList henv hbody
  -- none of the reasons to skip the action is there
  have hexecute : ((Action.infer source ds (SortedBy.ofList [body])).execute s).sequent = t := by
    have hany : (ds.any fun n => s.env.binds n.name) = false := by
      rw [List.any_eq_false]
      intro d hd
      rw [hfresh d hd]
      exact Bool.false_ne_true
    have htry : s.tryInfer source ds (SortedBy.ofList [body]) = some t := by
      rw [tryInfer, hasAll_iff.mpr hsources, hany, if_pos]
      · exact ht
      · show (!(s.has body && true)) = true
        rw [hnew]
        rfl
    rw [Action.execute, htry]
  obtain ⟨hstands, hkept⟩ := entries_forwardInfer ht
  have hgrows := (grows_forwardInfer ht).1
  rw [hexecute]
  refine .of_grows (hgrows.mark _ _) rfl ?_ ?_ ?_
  · intro p hp
    rw [SortedSet.mem_singleton.mp hp]
    -- the body is new, so it is not among the sources that get hidden
    have hapart : body ∉ source.toList := by
      intro hmem
      rw [hsources body hmem] at hnew
      cases hnew
    rw [stands_mark_of_notMem hapart]
    exact hstands body (SortedSet.mem_singleton.mpr rfl) hnew
  · intro p hp
    exact stands_mark (fun _ => rfl) hp ((hgrows.has p).mpr (Or.inl (hsources p hp)))
  · intro p hadded hhidden
    rw [hypothesis?_mark_of_notMem hhidden, hkept p hadded]

/-- If `p` is there, the inference is skipped and `x` stays unbound. -/
theorem child_skipped {ds : List TypedName} {body : Pred} {source : SortedSet Pred}
    (hsources : ∀ p ∈ source, s.has p = true) (hthere : s.has body = true) :
    s.Child { goal := s.goal, hidden := source }
      (((Action.infer source ds (SortedBy.ofList [body])).execute s).sequent.mark .hide
        source.toList) := by
  have htry : s.tryInfer source ds (SortedBy.ofList [body]) = none := by
    rw [tryInfer, if_neg]
    show ¬ (_ && !(s.has body && true)) = true
    rw [hthere, Bool.and_true, Bool.not_true, Bool.and_false]
    exact Bool.false_ne_true
  rw [Action.execute, htry]
  refine .of_grows (s.grows_mark _ _) rfl ?_ ?_ ?_
  · intro p hp
    exact absurd hp List.not_mem_nil
  · intro p hp
    exact stands_mark (fun _ => rfl) hp (hsources p hp)
  · intro p _ hhidden
    exact hypothesis?_mark_of_notMem hhidden

end Sequent

/-! ## Antecedents and rules -/

namespace Antecedent

variable {a : Antecedent} {s t : Sequent}

/-- Added hypotheses are selected; the other entries stay. -/
theorem entries_stage (h : a.stage s = some t) :
    (∀ p ∈ a.hyps, t.stands .selected p = true) ∧
      ∀ p, p ∉ a.hyps → t.hypothesis? p = s.hypothesis? p := by
  have hhas := (stage_contents h).2.2.2
  rw [stage] at h
  obtain ⟨bound, hbound, h⟩ := Option.bind_eq_some_iff.mp h
  obtain ⟨aimed, haimed, h⟩ := Option.bind_eq_some_iff.mp h
  obtain ⟨extended, hextended, h⟩ := Option.bind_eq_some_iff.mp h
  cases h
  obtain ⟨env, -, rfl⟩ := Sequent.addIdents_eq_some.mp hbound
  obtain rfl := eq_of_aim haimed
  obtain ⟨-, rfl⟩ := Sequent.addHyps_eq_some.mp hextended
  constructor
  -- selecting comes last, on hypotheses that are there by then
  · intro p hp
    refine Sequent.stands_mark (fun _ => rfl) hp ?_
    rw [← Sequent.has_mark _ .select a.hyps.toList]
    exact (hhas p).mpr (Or.inr hp)
  · intro p hp
    rw [Sequent.hypothesis?_mark_of_notMem hp, Sequent.hypothesis?_derive_of_notMem hp,
      Sequent.hypothesis?_mark_of_notMem hp]
    rfl

/-- An antecedent without actions makes a child that differs by its goal, names
    and hypotheses. -/
theorem exists_child {env : TypeEnv} (hs : s.WellTyped) (hactions : a.actions = [])
    (henv : s.env.extend a.idents = .ok env) (hacc : a.Accepted env) :
    ∃ t, a.apply s = some t ∧
      s.Child { goal := a.goal.getD s.goal, names := a.idents, added := a.hyps } t := by
  obtain ⟨t, ht⟩ := exists_stage hs henv hacc
  obtain ⟨henv', hgoal, -, hhas⟩ := stage_contents ht
  obtain ⟨hselected, hkept⟩ := entries_stage ht
  refine ⟨t, ?_, hgoal, henv', fun n => TypeEnv.bindsAs_extend henv', ?_, hselected, ?_, ?_⟩
  · rw [apply, expand_eq_map, ht, hactions]
    rfl
  · intro p
    rw [Sequent.mem_hypotheses, Sequent.mem_hypotheses]
    exact hhas p
  · intro p hp
    exact absurd hp List.not_mem_nil
  · intro p hadded _
    exact hkept p hadded

/-- Without names, goal and hypotheses need only type-check in the sequent. -/
theorem exists_child_unnamed {goal : Option Pred} {hyps : SortedSet Pred} (hs : s.WellTyped)
    (hgoal : ∀ g, goal = some g → s.env.accepts g = true)
    (hhyps : ∀ p ∈ hyps, s.env.accepts p = true) :
    ∃ t, Antecedent.apply { goal := goal, hyps := hyps } s = some t ∧
      s.Child { goal := goal.getD s.goal, added := hyps } t := by
  have hnil : s.env.extend [] = .ok s.env := rfl
  exact exists_child hs rfl hnil ⟨hgoal, hhyps⟩

/-- A child with another goal that type-checks. -/
theorem exists_child_aimed {g : Pred} (hs : s.WellTyped) (hg : s.env.accepts g = true) :
    ∃ t, Antecedent.apply { goal := some g } s = some t ∧ s.Child { goal := g } t := by
  refine exists_child_unnamed hs ?_ fun p hp => absurd hp List.not_mem_nil
  rintro _ ⟨⟩
  exact hg

/-- An antecedent that consists of actions runs them on the sequent itself. -/
theorem apply_actions (actions : List Action) (s : Sequent) :
    Antecedent.apply { actions := actions } s = some (s.performAll actions).1 := by
  have hstage : Antecedent.stage { actions := actions } s = some s := by
    show some (((s.mark .show []).derive .plain []).mark .select []) = some s
    rw [Sequent.mark_nil, Sequent.mark_nil]
    rfl
  rw [apply, expand_eq_map, hstage]
  rfl

end Antecedent

namespace Rule

variable {r : Rule} {s : Sequent}

/-- A rule fits if it asks for nothing but what is there. -/
theorem fits_of (hgoal : r.goal = none ∨ r.goal = some s.goal)
    (hneeded : ∀ p ∈ r.needed, s.has p = true) : r.fits s = true := by
  refine fits_iff.mpr ⟨hneeded, ?_⟩
  intro g hg
  rcases hgoal with hgoal | hgoal
  · rw [hgoal] at hg
    cases hg
  · rw [hgoal] at hg
    exact (Option.some.inj hg).symm

/-- The children of a rule that fits, one per antecedent. -/
theorem exists_children {differences : List Difference} (hfits : r.fits s = true)
    (h : List.Forall₂ (fun a d => ∃ t, Antecedent.apply a s = some t ∧ s.Child d t)
      r.antecedents differences) :
    ∃ kids, r.apply s = some kids ∧ List.Forall₂ s.Child differences kids := by
  obtain ⟨cs, hcs, hchildren⟩ : ∃ cs, Antecedent.expandAll s r.antecedents = some cs ∧
      List.Forall₂ s.Child differences (cs.map Prod.fst) := by
    generalize r.antecedents = as at h
    induction h with
    | nil => exact ⟨[], rfl, .nil⟩
    | cons hfirst _ ih =>
        obtain ⟨t, ht, hchild⟩ := hfirst
        obtain ⟨⟨t, flags⟩, hexpand, rfl⟩ := Option.map_eq_some_iff.mp ht
        obtain ⟨cs, hcs, hrest⟩ := ih
        refine ⟨(t, flags) :: cs, ?_, .cons hchild hrest⟩
        rw [Antecedent.expandAll, hexpand, hcs]
        rfl
  refine ⟨cs.map Prod.fst, ?_, hchildren⟩
  rw [apply, expand_eq_some.mpr ⟨hfits, cs, hcs, rfl, rfl⟩]
  rfl

end Rule

/-! ## Proposals -/

namespace Builtin

variable {b : Builtin} {s : Sequent} {input : Input} {r : Rule} {monitor : Monitor}

/-- The children that the rule of each reasoner makes of a sequent. -/
inductive Splits (s : Sequent) : Builtin → Input → List Difference → Prop where
  | hyp (input : Input) : Splits s .hyp input []
  | trueGoal (input : Input) : Splits s .trueGoal input []
  | falseHyp (input : Input) : Splits s .falseHyp input []
  | review (input : Input) : Splits s .review input []
  | impGoal (input : Input) (p q : Pred) (shape : s.goal = .binary .imp p q) :
      Splits s .impGoal input [{ goal := q, added := SortedBy.ofList [p] }]
  | conjGoal (input : Input) (p q : Pred) (shape : s.goal = .binary .and p q) :
      Splits s .conjGoal input [{ goal := p }, { goal := q }]
  | allGoal (input : Input) (ds : List TypedName) (body : Pred)
      (shape : s.goal = .quantified .universal ds body) :
      Splits s .allGoal input [{ goal := body, names := ds }]
  | cut (p : Pred) :
      Splits s .cut (.predicate p)
        [{ goal := p }, { goal := s.goal, added := SortedBy.ofList [p] }]
  | conjHyp (p q : Pred) :
      Splits s .conjHyp (.predicate (.binary .and p q))
        [{ goal := s.goal, added := SortedBy.ofList [p, q],
           hidden := SortedBy.ofList [.binary .and p q] }]
  | existsNew (ds : List TypedName) (body : Pred) (new : s.has body = false) :
      Splits s .existsHyp (.predicate (.quantified .existential ds body))
        [{ goal := s.goal, names := ds, added := SortedBy.ofList [body],
           standing := s.inferredStanding [.quantified .existential ds body],
           hidden := SortedBy.ofList [.quantified .existential ds body] }]
  | existsThere (ds : List TypedName) (body : Pred) (there : s.has body = true) :
      Splits s .existsHyp (.predicate (.quantified .existential ds body))
        [{ goal := s.goal, hidden := SortedBy.ofList [.quantified .existential ds body] }]

/-- The goal is universal and one of its names is bound already. -/
def Clashes (b : Builtin) (s : Sequent) : Prop :=
  b = .allGoal ∧ ∃ ds body, s.goal = .quantified .universal ds body ∧
    ∃ d ∈ ds, s.env.binds d.name = true

/-- A rule fits the sequent it is proposed for. -/
theorem Proposed.fits (h : b.Proposed s r input) : r.fits s = true := by
  cases h with
  | hyp _ there goal needed _ =>
      exact Rule.fits_of (Or.inr goal) (needed ▸ SortedSet.forall_mem_singleton.mpr there)
  | trueGoal _ shape goal needed _ =>
      exact Rule.fits_of (Or.inr (shape ▸ goal)) (needed ▸ fun p hp => absurd hp List.not_mem_nil)
  | falseHyp _ there goal needed _ =>
      exact Rule.fits_of (Or.inl goal) (needed ▸ SortedSet.forall_mem_singleton.mpr there)
  | review _ _ goal needed _ =>
      refine Rule.fits_of (Or.inr goal) (needed ▸ fun p hp => ?_)
      -- what is selected is a hypothesis
      exact Sequent.mem_hypotheses.mp (s.ofStanding_subset _ (SortedSet.mem_ofList.mp hp))
  | impGoal _ _ _ _ goal needed _ | conjGoal _ _ _ _ goal needed _
  | allGoal _ _ _ _ goal needed _ =>
      exact Rule.fits_of (Or.inr goal) (needed ▸ fun p hp => absurd hp List.not_mem_nil)
  | cut _ _ goal needed _ =>
      exact Rule.fits_of (Or.inl goal) (needed ▸ fun p hp => absurd hp List.not_mem_nil)
  | conjHyp _ _ _ sources there goal needed _ | existsHyp _ _ _ sources there _ goal needed _ =>
      refine Rule.fits_of (Or.inl goal) ?_
      rw [needed, sources]
      exact SortedSet.forall_mem_singleton.mpr there

/-- Each antecedent of a proposed rule makes the child it should. -/
theorem Proposed.splits (hs : s.WellTyped) (h : b.Proposed s r input) (hclear : ¬ b.Clashes s) :
    ∃ differences, b.Splits s input differences ∧
      List.Forall₂ (fun a d => ∃ t, Antecedent.apply a s = some t ∧ s.Child d t)
        r.antecedents differences := by
  cases h with
  | hyp _ _ _ _ antecedents =>
      rw [antecedents]
      exact ⟨[], .hyp input, .nil⟩
  | trueGoal _ _ _ _ antecedents =>
      rw [antecedents]
      exact ⟨[], .trueGoal input, .nil⟩
  | falseHyp _ _ _ _ antecedents =>
      rw [antecedents]
      exact ⟨[], .falseHyp input, .nil⟩
  | review _ _ _ _ antecedents =>
      rw [antecedents]
      exact ⟨[], .review input, .nil⟩
  | impGoal _ p q shape _ _ antecedents =>
      obtain ⟨hp, hq⟩ := TypeEnv.accepts_binary.mp (shape ▸ hs.goal)
      rw [antecedents]
      refine ⟨_, .impGoal input p q shape, .cons (Antecedent.exists_child_unnamed hs ?_ ?_) .nil⟩
      · rintro _ ⟨⟩
        exact hq
      · exact SortedSet.forall_mem_singleton.mpr hp
  | conjGoal _ p q shape _ _ antecedents =>
      obtain ⟨hp, hq⟩ := TypeEnv.accepts_binary.mp (shape ▸ hs.goal)
      rw [antecedents]
      exact ⟨_, .conjGoal input p q shape, .cons (Antecedent.exists_child_aimed hs hp)
        (.cons (Antecedent.exists_child_aimed hs hq) .nil)⟩
  | allGoal _ ds body shape _ _ antecedents =>
      have hgoal : s.env.accepts (.quantified .universal ds body) = true := shape ▸ hs.goal
      have hfresh : ∀ d ∈ ds, s.env.binds d.name = false := by
        intro d hd
        refine Bool.eq_false_iff.mpr fun hbound => hclear ?_
        exact ⟨rfl, ds, body, shape, d, hd, hbound⟩
      obtain ⟨env, henv⟩ := TypeEnv.exists_extend_of_accepts hgoal hfresh
      rw [antecedents]
      refine ⟨_, .allGoal input ds body shape,
        .cons (Antecedent.exists_child hs rfl henv ⟨?_, ?_⟩) .nil⟩
      · rintro _ ⟨⟩
        exact TypeEnv.accepts_body hgoal henv
      · intro p hp
        exact absurd hp List.not_mem_nil
  | cut p accepted _ _ antecedents =>
      rw [antecedents]
      refine ⟨_, .cut p, .cons (Antecedent.exists_child_aimed hs accepted)
        (.cons (Antecedent.exists_child_unnamed hs ?_ ?_) .nil)⟩
      · intro g hg
        cases hg
      · exact SortedSet.forall_mem_singleton.mpr accepted
  | conjHyp p q gone sources there _ _ antecedents =>
      obtain ⟨hp, hq⟩ := TypeEnv.accepts_binary.mp (hs.hyps _ there)
      subst sources
      rw [antecedents]
      refine ⟨_, .conjHyp p q, .cons ⟨_, Antecedent.apply_actions _ s, ?_⟩ .nil⟩
      refine Sequent.child_replace (SortedSet.forall_mem_singleton.mpr there) ?_ ?_
      · intro g hg
        rcases List.mem_pair.mp (SortedSet.mem_ofList.mp hg) with rfl | rfl
        · exact hp
        · exact hq
      · -- neither side is the conjunction
        intro g hg hgone
        have hconj : g = .binary .and p q := SortedSet.mem_singleton.mp hgone
        rcases List.mem_pair.mp (SortedSet.mem_ofList.mp hg) with rfl | rfl
        · cases hconj
        · cases hconj
  | existsHyp ds body source sources there fresh _ _ antecedents =>
      rw [antecedents]
      subst sources
      cases hbody : s.has body with
      | false =>
          exact ⟨_, .existsNew ds body hbody, .cons ⟨_, Antecedent.apply_actions _ s,
            Sequent.child_infer hs rfl there fresh hbody⟩ .nil⟩
      | true =>
          exact ⟨_, .existsThere ds body hbody, .cons ⟨_, Antecedent.apply_actions _ s,
            Sequent.child_skipped (SortedSet.forall_mem_singleton.mpr there) hbody⟩ .nil⟩

/-- Where a name is bound already, the rule for a universal goal is refused. -/
theorem Proposed.refused (h : b.Proposed s r input) (hclash : b.Clashes s) : r.apply s = none := by
  obtain ⟨rfl, ds, body, hgoal, d, hd, hbound⟩ := hclash
  cases h with
  | allGoal _ ds' body' shape _ _ antecedents =>
      cases hgoal.symm.trans shape
      refine Option.eq_none_iff_forall_ne_some.mpr fun kids hkids => ?_
      obtain ⟨⟨kids, skipped⟩, hexpand, rfl⟩ := Option.map_eq_some_iff.mp hkids
      obtain ⟨-, cs, hcs, -, -⟩ := Rule.expand_eq_some.mp hexpand
      rw [antecedents, Antecedent.expandAll_eq_some] at hcs
      cases hcs with
      | cons hchild _ =>
          obtain ⟨mid, hmid, -⟩ := Antecedent.expand_eq_some.mp hchild
          have hfresh := (TypeEnv.fresh_of_extend (Antecedent.stage_contents hmid).1).2 d hd
          rw [TypeEnv.binds_eq_false.mpr hfresh] at hbound
          cases hbound

/-- A proposed rule that does not clash makes the children it should. -/
theorem Proposed.children (hs : s.WellTyped) (h : b.Proposed s r input) (hclear : ¬ b.Clashes s) :
    ∃ differences kids, b.Splits s input differences ∧ r.apply s = some kids ∧
      List.Forall₂ s.Child differences kids := by
  obtain ⟨differences, hsplits, hchildren⟩ := h.splits hs hclear
  obtain ⟨kids, hkids, hall⟩ := Rule.exists_children h.fits hchildren
  exact ⟨differences, kids, hsplits, hkids, hall⟩

/-- What a builtin reasoner proposes for a sequent applies to it, unless the
    goal is universal and one of its names is bound already, and the children
    are those it promises. -/
theorem proposal_applies (hs : s.WellTyped) (h : (b.reasoner.apply s input monitor).1 = .ok r) :
    (r.apply s = none ↔ b.Clashes s) ∧
      ∀ kids, r.apply s = some kids → ∃ differences, b.Splits s input differences ∧
        List.Forall₂ s.Child differences kids := by
  have hproposed : b.Proposed s r input := proposed_of_propose h
  by_cases hclash : b.Clashes s
  · have hrefused := hproposed.refused hclash
    refine ⟨⟨fun _ => hclash, fun _ => hrefused⟩, ?_⟩
    intro kids hkids
    rw [hrefused] at hkids
    cases hkids
  · obtain ⟨differences, kids, hsplits, hkids, hall⟩ := hproposed.children hs hclash
    rw [hkids]
    refine ⟨⟨?_, fun hclash' => absurd hclash' hclash⟩, ?_⟩
    · intro hnone
      cases hnone
    · intro kids' hsame
      cases hsame
      exact ⟨differences, hsplits, hall⟩

/-- A conjunction that is hidden, one side of which is a hypothesis too, above
    a universal goal that declares a bound name. -/
def crowded : Sequent where
  env := ⟨SortedBy.ofList [⟨"x", .integer⟩]⟩
  hyps := SortedBy.ofList [⟨.top, .given, .hidden⟩, ⟨.binary .and .top .bottom, .derived, .plain⟩]
  goal := .quantified .universal [⟨"y", .integer⟩, ⟨"x", .boolean⟩] .top

theorem crowded_proposals :
    (∃ r, (allGoal.reasoner.apply crowded .empty .never).1 = .ok r ∧ r.apply crowded = none) ∧
      ∃ r t, (conjHyp.reasoner.apply crowded (.predicate (.binary .and .top .bottom)) .never).1 =
          .ok r ∧ r.apply crowded = some [t] ∧
        crowded.Child
          { goal := crowded.goal, added := SortedBy.ofList [.top, .bottom],
            hidden := SortedBy.ofList [.binary .and .top .bottom] } t := by
  have hs : crowded.WellTyped := by decide +kernel
  constructor
  · obtain ⟨r, hr⟩ : ∃ r, (allGoal.reasoner.apply crowded .empty .never).1 = .ok r := ⟨_, rfl⟩
    -- the goal binds a name that is declared already
    refine ⟨r, hr, (proposal_applies hs hr).1.mpr ⟨rfl, _, _, rfl, ⟨"x", .boolean⟩, ?_, rfl⟩⟩
    exact List.mem_cons_of_mem _ List.mem_cons_self
  · obtain ⟨r, hr⟩ : ∃ r, (conjHyp.reasoner.apply crowded
        (.predicate (.binary .and .top .bottom)) .never).1 = .ok r := ⟨_, rfl⟩
    obtain ⟨hrefused, hchildren⟩ := proposal_applies hs hr
    cases hkids : r.apply crowded with
    | none => cases (hrefused.mp hkids).1
    | some kids =>
        obtain ⟨_, hsplits, hall⟩ := hchildren kids hkids
        cases hsplits with
        | conjHyp =>
            cases hall with
            | cons hchild hrest =>
                cases hrest
                exact ⟨r, _, hr, hkids, hchild⟩

/-- An existential hypothesis that can be taken apart leaves one child, where
    it is hidden and its body is a hypothesis.  Its names are bound there, if
    the body is new; if it is not, the inference is skipped and they are not. -/
theorem existential_opened {ds : List TypedName} {body : Pred} (hs : s.WellTyped)
    (h : (existsHyp.reasoner.apply s (.predicate (.quantified .existential ds body)) monitor).1 =
      .ok r) :
    ∃ t, r.apply s = some [t] ∧ t.goal = s.goal ∧
      (∀ p, p ∈ t.hypotheses ↔ p ∈ s.hypotheses ∨ p = body) ∧
      t.stands .hidden (.quantified .existential ds body) = true ∧
      (body ∉ s.hypotheses → s.env.extend ds = .ok t.env ∧
        ∀ n : TypedName, t.env.bindsAs n = true ↔ s.env.bindsAs n = true ∨ n ∈ ds) ∧
      (body ∈ s.hypotheses → t.env = s.env) := by
  have hproposed : existsHyp.Proposed s r (.predicate (.quantified .existential ds body)) :=
    proposed_of_propose h
  obtain ⟨_, kids, hsplits, hkids, hall⟩ :=
    hproposed.children hs fun hclash => nomatch hclash.1
  -- whether the body is known already decides if the names are opened at all
  cases hsplits with
  | existsNew _ _ hnew =>
      cases hall with
      | cons hchild hrest =>
          cases hrest
          refine ⟨_, hkids, hchild.goal, ?_, hchild.hidden _ (SortedSet.mem_singleton.mpr rfl),
            fun _ => ⟨hchild.env, hchild.bindings⟩, ?_⟩
          · intro p
            rw [hchild.hypotheses, SortedSet.mem_singleton]
          · intro hthere
            rw [Sequent.mem_hypotheses, hnew] at hthere
            cases hthere
  | existsThere _ _ hthere =>
      cases hall with
      | cons hchild hrest =>
          cases hrest
          refine ⟨_, hkids, hchild.goal, ?_, hchild.hidden _ (SortedSet.mem_singleton.mpr rfl), ?_,
            fun _ => (TypeEnv.extend_nil.mp hchild.env).symm⟩
          · intro p
            rw [hchild.hypotheses]
            constructor
            · rintro (hp | hp)
              · exact Or.inl hp
              · exact absurd hp List.not_mem_nil
            · rintro (hp | rfl)
              · exact Or.inl hp
              · exact Or.inl (Sequent.mem_hypotheses.mpr hthere)
          · intro hnew
            exact absurd (Sequent.mem_hypotheses.mpr hthere) hnew

/-- A witness `y` above `x`: it is bound beside `x`, and its property known. -/
theorem above_opened :
    let above : Pred :=
      .quantified .existential [⟨"y", .integer⟩] (.relation .gt (.ident "y") (.ident "x"))
    let s : Sequent :=
      ⟨⟨SortedBy.ofList [⟨"x", .integer⟩]⟩, SortedBy.ofList [⟨above, .given, .plain⟩], .top⟩
    ∃ r t, (existsHyp.reasoner.apply s (.predicate above) .never).1 = .ok r ∧
      r.apply s = some [t] ∧ t.stands .hidden above = true ∧ t.env.bindsAs ⟨"y", .integer⟩ = true ∧
      .relation .gt (.ident "y") (.ident "x") ∈ t.hypotheses := by
  intro above s
  have hs : s.WellTyped := by decide +kernel
  obtain ⟨r, hr⟩ : ∃ r, (existsHyp.reasoner.apply s (.predicate above) .never).1 = .ok r :=
    ⟨_, rfl⟩
  obtain ⟨t, ht, -, hhyps, hhidden, hbound, -⟩ := existential_opened hs hr
  refine ⟨r, t, hr, ht, hhidden, ?_, (hhyps _).mpr (Or.inr rfl)⟩
  exact ((hbound (by decide +kernel)).2 _).mpr (Or.inr List.mem_cons_self)

/-- `∃x·⊤`. -/
def inhabited : Pred := .quantified .existential [⟨"x", .integer⟩] .top

/-- Where `⊤` is a hypothesis already, taking `∃x·⊤` apart binds no `x`. -/
theorem existential_unopened :
    ∃ s r t, Sequent.ofHypotheses .empty [inhabited, .top] .top = .ok s ∧ s.WellTyped ∧
      inhabited ∈ s.hypotheses ∧
      (existsHyp.reasoner.apply s (.predicate inhabited) .never).1 = .ok r ∧
      r.apply s = some [t] ∧ t.env.binds "x" = false ∧
      s.env.extend [⟨"x", .integer⟩] ≠ .ok t.env := by
  let s : Sequent :=
    ⟨.empty, SortedBy.ofList [⟨.top, .given, .selected⟩, ⟨inhabited, .given, .selected⟩], .top⟩
  have hbuild : Sequent.ofHypotheses .empty [inhabited, .top] .top = .ok s := rfl
  exact ⟨s, _, _, hbuild, by decide +kernel, by decide +kernel, rfl, rfl, rfl, by decide +kernel⟩

end Builtin

end SequentProver
