import SequentProver.Proofs.Typing
import SequentProver.Rule.Basic

/-! # How sequents grow

    Above its parent a child sequent only grows: names are bound,
    hypotheses are added, and the goal may be replaced.  Here a sequent is
    seen through its environment, its goal and what it has; standings and
    origins are left out.

    Route:
    1. `WellTyped`, what every sequent in a proof satisfies;
    2. `Grows`, what an operation on a sequent does, and that growing by
       accepted predicates keeps a sequent well typed;
    3. one lemma per operation, per action, and for lists of actions;
    4. `stage`, the part of an antecedent before its actions, and then
       antecedents and rules as a whole. -/

namespace SequentProver

namespace Sequent

variable {s t u : Sequent}

/-- Goal and hypotheses type-check in the environment. -/
structure WellTyped (s : Sequent) : Prop where
  goal : s.env.accepts s.goal = true
  hyps : ∀ p, s.has p = true → s.env.accepts p = true

/-- It is enough to look at the entries. -/
theorem wellTyped_iff : s.WellTyped ↔
    s.env.accepts s.goal = true ∧ ∀ h ∈ s.hyps.toList, s.env.accepts h.pred = true := by
  constructor
  · intro hs
    exact ⟨hs.goal, fun h hh => hs.hyps h.pred (SortedBy.hasKey_iff.mpr ⟨h, hh, rfl⟩)⟩
  · rintro ⟨hgoal, hhyps⟩
    refine ⟨hgoal, fun p hp => ?_⟩
    obtain ⟨h, hh, rfl⟩ := SortedBy.hasKey_iff.mp hp
    exact hhyps h hh

instance : Decidable s.WellTyped := decidable_of_iff _ wellTyped_iff.symm

/-- `t` is `s` with `names` bound and `preds` among the hypotheses. -/
structure Grows (s : Sequent) (names : List TypedName) (preds : List Pred) (t : Sequent) :
    Prop where
  env : s.env.extend names = .ok t.env
  goal : t.goal = s.goal
  has : ∀ p, t.has p = true ↔ s.has p = true ∨ p ∈ preds

namespace Grows

theorem refl (s : Sequent) : s.Grows [] [] s where
  env := rfl
  goal := rfl
  has _ := ⟨Or.inl, fun h => h.resolve_right List.not_mem_nil⟩

theorem trans {ns ms : List TypedName} {ps qs : List Pred} (h : s.Grows ns ps t)
    (h' : t.Grows ms qs u) : s.Grows (ns ++ ms) (ps ++ qs) u where
  env := TypeEnv.extend_append.mpr ⟨t.env, h.env, h'.env⟩
  goal := h'.goal.trans h.goal
  has p := by rw [h'.has, h.has, List.mem_append, or_assoc]

variable {ns : List TypedName} {ps : List Pred}

/-- A sequent that grows keeps its names. -/
theorem env_extends (h : s.Grows ns ps t) : s.env.Extends t.env := TypeEnv.extends_of_extend h.env

/-- Growing by accepted predicates keeps a sequent well typed. -/
theorem wellTyped (h : s.Grows ns ps t) (hs : s.WellTyped)
    (hps : ∀ p ∈ ps, s.has p = true ∨ t.env.accepts p = true) : t.WellTyped where
  goal := by
    rw [h.goal]
    exact TypeEnv.accepts_of_extends h.env_extends hs.goal
  hyps p hp := by
    have hold : s.has p = true → t.env.accepts p = true := fun hsp =>
      TypeEnv.accepts_of_extends h.env_extends (hs.hyps p hsp)
    rcases (h.has p).mp hp with hsp | hmem
    · exact hold hsp
    · exact (hps p hmem).elim hold id

end Grows

/-! ## Operations -/

/-- All of several predicates are hypotheses if each of them is. -/
theorem hasAll_iff {ps : List Pred} : s.hasAll ps = true ↔ ∀ p ∈ ps, s.has p = true :=
  List.all_eq_true

/-- Marks change nothing that counts here. -/
theorem grows_mark (s : Sequent) (m : Mark) (ps : List Pred) : s.Grows [] [] (s.mark m ps) where
  env := rfl
  goal := rfl
  has p := by
    have hsame : (s.mark m ps).has p = s.has p := by
      rw [has, mark, SortedBy.hasKey_adjust, has]
    rw [hsame]
    exact ⟨Or.inl, fun h => h.resolve_right List.not_mem_nil⟩

/-- Derived hypotheses are there afterwards. -/
theorem grows_derive (s : Sequent) (standing : Standing) (ps : List Pred) :
    s.Grows [] ps (s.derive standing ps) where
  env := rfl
  goal := rfl
  has p := by
    rw [has, derive, SortedBy.hasKey_insertAll]
    constructor
    · rintro (h | ⟨entry, hmem, rfl⟩)
      · exact Or.inl h
      · obtain ⟨q, hq, rfl⟩ := List.mem_map.mp hmem
        exact Or.inr (List.mem_filter.mp hq).1
    · rintro (h | hmem)
      · exact Or.inl h
      · cases hp : s.has p with
        | true => exact Or.inl hp
        | false =>
            refine Or.inr ⟨⟨p, .derived, standing⟩, List.mem_map.mpr ⟨p, ?_, rfl⟩, rfl⟩
            rw [List.mem_filter, hp]
            exact ⟨hmem, rfl⟩

/-- Names are added if they can all be bound. -/
theorem addIdents_eq_some {ns : List TypedName} :
    s.addIdents ns = some t ↔ ∃ env, s.env.extend ns = .ok env ∧ t = { s with env := env } := by
  rw [addIdents]
  cases s.env.extend ns with
  | error e =>
      constructor
      · intro h
        exact nomatch h
      · rintro ⟨env, henv, -⟩
        exact nomatch henv
  | ok env =>
      constructor
      · intro h
        exact ⟨env, rfl, (Option.some.inj h).symm⟩
      · rintro ⟨env', henv', rfl⟩
        cases henv'
        rfl

/-- Binding names keeps the rest. -/
theorem grows_addIdents {ns : List TypedName} (h : s.addIdents ns = some t) :
    s.Grows ns [] t := by
  obtain ⟨env, henv, rfl⟩ := addIdents_eq_some.mp h
  exact ⟨henv, rfl, fun _ => ⟨Or.inl, fun h => h.resolve_right List.not_mem_nil⟩⟩

/-- A well-typed sequent takes any goal that type-checks. -/
theorem replaceGoal_eq_some (hs : s.WellTyped) {goal : Pred} :
    s.replaceGoal goal = some t ↔
      s.env.accepts goal = true ∧ t = { s with goal := goal } := by
  rw [replaceGoal]
  -- a goal that is there already is taken without a look at its types
  by_cases hgoal : goal = s.goal
  · subst hgoal
    rw [if_pos rfl]
    constructor
    · intro h
      exact ⟨hs.goal, (Option.some.inj h).symm⟩
    · rintro ⟨-, rfl⟩
      rfl
  · rw [if_neg hgoal]
    by_cases hacc : s.env.accepts goal = true
    · rw [if_pos hacc]
      constructor
      · intro h
        exact ⟨hacc, (Option.some.inj h).symm⟩
      · rintro ⟨-, rfl⟩
        rfl
    · rw [if_neg hacc]
      constructor
      · intro h
        exact nomatch h
      · rintro ⟨h, -⟩
        exact absurd h hacc

/-- Hypotheses are added if they type-check; what was hidden is shown. -/
theorem addHyps_eq_some {ps : List Pred} :
    s.addHyps ps = some t ↔
      (∀ p ∈ ps, s.env.accepts p = true) ∧ t = (s.mark .show ps).derive .plain ps := by
  rw [addHyps]
  by_cases hall : ps.all s.env.accepts = true
  · rw [if_pos hall]
    constructor
    · intro h
      exact ⟨List.all_eq_true.mp hall, (Option.some.inj h).symm⟩
    · rintro ⟨-, rfl⟩
      rfl
  · rw [if_neg hall]
    constructor
    · intro h
      exact nomatch h
    · rintro ⟨h, -⟩
      exact absurd (List.all_eq_true.mpr h) hall

/-- A forward inference binds its names and adds what it infers; what was not
    there before type-checks. -/
theorem grows_forwardInfer {sources ps : List Pred} {ns : List TypedName}
    (h : s.forwardInfer sources ns ps = some t) :
    s.Grows ns ps t ∧ ∀ p ∈ ps, s.has p = true ∨ t.env.accepts p = true := by
  rw [forwardInfer] at h
  cases hadd : s.addIdents ns with
  | none =>
      rw [hadd] at h
      exact nomatch h
  | some bound =>
      rw [hadd] at h
      -- binding names leaves the hypotheses alone
      have hbound := grows_addIdents hadd
      have hhas : ∀ p, bound.has p = true ↔ s.has p = true := fun p => by
        rw [hbound.has]
        exact ⟨fun h => h.resolve_right List.not_mem_nil, Or.inl⟩
      by_cases hall : ((ps.filter fun p => !bound.has p).all bound.env.accepts) = true
      · simp only [hall, if_true, Option.some.injEq] at h
        subst h
        have hderive := grows_derive bound (s.inferredStanding sources)
          (ps.filter fun p => !bound.has p)
        constructor
        · refine ⟨hbound.env, hbound.goal, fun p => ?_⟩
          rw [hderive.has, hhas, List.mem_filter]
          constructor
          · rintro (hp | ⟨hmem, -⟩)
            · exact Or.inl hp
            · exact Or.inr hmem
          · rintro (hp | hmem)
            · exact Or.inl hp
            · cases hp : bound.has p with
              | true => exact Or.inl ((hhas p).mp hp)
              | false => exact Or.inr ⟨hmem, rfl⟩
        · intro p hmem
          cases hp : bound.has p with
          | true => exact Or.inl ((hhas p).mp hp)
          | false =>
              refine Or.inr (List.all_eq_true.mp hall p (List.mem_filter.mpr ⟨hmem, ?_⟩))
              rw [hp]
              rfl
      · simp only [hall] at h
        exact nomatch h

/-- A forward inference over unbound names goes through when what it infers
    type-checks once they are bound. -/
theorem exists_forwardInfer (sources : List Pred) {ps : List Pred} {ns : List TypedName}
    {env : TypeEnv} (henv : s.env.extend ns = .ok env) (hps : ∀ p ∈ ps, env.accepts p = true) :
    ∃ t, s.forwardInfer sources ns ps = some t := by
  have hadd : s.addIdents ns = some { s with env := env } :=
    addIdents_eq_some.mpr ⟨env, henv, rfl⟩
  have hall : ((ps.filter fun p => !Sequent.has { s with env := env } p).all env.accepts)
      = true := by
    rw [List.all_eq_true]
    intro p hp
    exact hps p (List.mem_filter.mp hp).1
  rw [forwardInfer, hadd]
  simp only [hall, if_true]
  exact ⟨_, rfl⟩

/-- Marking after growing does not change how a sequent grew. -/
theorem Grows.mark {ns : List TypedName} {ps : List Pred} (h : s.Grows ns ps t) (m : Mark)
    (qs : List Pred) : s.Grows ns ps (t.mark m qs) := by
  have h' := h.trans (grows_mark t m qs)
  rwa [List.append_nil, List.append_nil] at h'

/-- What a sequent has, its goal and its environment do not depend on where
    hypotheses come from. -/
theorem sameAs_spec (h : s.sameAs t = true) :
    s.goal = t.goal ∧ s.env = t.env ∧ ∀ p, s.has p = t.has p := by
  rw [sameAs, Bool.and_eq_true, Bool.and_eq_true] at h
  obtain ⟨⟨hgoal, henv⟩, hhyps⟩ := h
  refine ⟨of_decide_eq_true hgoal, of_decide_eq_true henv, fun p => ?_⟩
  have hpreds : s.hyps.toList.map Hypothesis.pred = t.hyps.toList.map Hypothesis.pred := by
    have := congrArg (List.map Prod.fst) (of_decide_eq_true hhyps)
    rwa [List.map_map, List.map_map] at this
  show s.hyps.toList.any (fun h => h.pred = p) = t.hyps.toList.any (fun h => h.pred = p)
  have hany : ∀ l : List Hypothesis,
      l.any (fun h => h.pred = p) = (l.map Hypothesis.pred).any (· = p) := fun l => by
    rw [List.any_map]
    rfl
  rw [hany, hany, hpreds]

/-- Sequents that are the same are well typed alike. -/
theorem WellTyped.of_sameAs (h : s.sameAs t = true) (ht : t.WellTyped) : s.WellTyped := by
  obtain ⟨hgoal, henv, hhas⟩ := sameAs_spec h
  refine ⟨?_, fun p hp => ?_⟩
  · rw [hgoal, henv]
    exact ht.goal
  · rw [henv]
    exact ht.hyps p (hhas p ▸ hp)

end Sequent

/-! ## Actions -/

namespace Action

/-- The hypotheses an inference draws on. -/
def sources : Action → SortedSet Pred
  | .mark _ _ => ∅
  | .infer sources _ _ => sources
  | .replace sources _ _ => sources

/-- The names an inference binds. -/
def names : Action → List TypedName
  | .infer _ idents _ => idents
  | _ => []

/-- The hypotheses an inference adds. -/
def added (a : Action) : SortedSet Pred := a.added?.getD ∅

/-- The action took effect: what it draws on was there, and the sequent grew
    by its names and predicates. -/
structure Fires (a : Action) (s t : Sequent) : Prop where
  sources : ∀ p ∈ a.sources, s.has p = true
  grows : s.Grows a.names a.added.toList t
  accepted : ∀ p ∈ a.added, s.has p = true ∨ t.env.accepts p = true

/-- An action is skipped and adds nothing, or takes effect. -/
theorem execute_cases (a : Action) (s : Sequent) :
    ((a.execute s).skipped = true ∧ s.Grows [] [] (a.execute s).sequent) ∨
      ((a.execute s).skipped = false ∧ a.Fires s (a.execute s).sequent) := by
  cases a with
  | mark m hyps =>
      exact Or.inr ⟨rfl, fun p hp => absurd hp List.not_mem_nil, s.grows_mark m hyps.toList,
        fun p hp => absurd hp List.not_mem_nil⟩
  | infer sources idents inferred =>
      rw [execute]
      cases htry : s.tryInfer sources idents inferred with
      | none => exact Or.inl ⟨rfl, .refl s⟩
      | some t =>
          rw [Sequent.tryInfer] at htry
          split at htry
          · rename_i hcond
            rw [Bool.and_eq_true, Bool.and_eq_true] at hcond
            obtain ⟨hgrows, haccepted⟩ := Sequent.grows_forwardInfer htry
            exact Or.inr ⟨rfl, Sequent.hasAll_iff.mp hcond.1.1, hgrows, haccepted⟩
          · exact nomatch htry
  -- sources missing, replacement all there, or something to infer
  | replace sources replacement toHide =>
      rw [execute, Sequent.performReplace]
      by_cases hsources : s.hasAll sources.toList = true
      · by_cases hthere : s.hasAll replacement.toList = true
        · simp only [hsources, hthere, Bool.not_true, Bool.false_eq_true, if_false, if_true]
          exact Or.inl ⟨trivial, ((Sequent.Grows.refl s).mark _ _).mark _ _⟩
        · simp only [hsources, hthere, Bool.not_true, Bool.false_eq_true, if_false]
          cases hinfer : s.forwardInfer sources.toList [] replacement.toList with
          | none => exact Or.inl ⟨rfl, .refl s⟩
          | some t =>
              obtain ⟨hgrows, haccepted⟩ := Sequent.grows_forwardInfer hinfer
              exact Or.inr ⟨rfl, Sequent.hasAll_iff.mp hsources, (hgrows.mark _ _).mark _ _,
                haccepted⟩
      · simp only [hsources, Bool.not_false, if_true]
        exact Or.inl ⟨trivial, .refl s⟩

/-- The sequent after an action is well typed and has only grown. -/
theorem wellTyped_execute {a : Action} {s : Sequent} (hs : s.WellTyped) :
    (a.execute s).sequent.WellTyped ∧ (a.execute s).sequent.goal = s.goal ∧
      s.env.Extends (a.execute s).sequent.env := by
  rcases a.execute_cases s with ⟨-, hgrows⟩ | ⟨-, hfires⟩
  · refine ⟨hgrows.wellTyped hs ?_, hgrows.goal, hgrows.env_extends⟩
    intro p hp
    exact nomatch hp
  · exact ⟨hfires.grows.wellTyped hs hfires.accepted, hfires.grows.goal,
      hfires.grows.env_extends⟩

end Action

/-- There is one flag per action. -/
theorem Sequent.length_performAll {s t : Sequent} {actions : List Action} {flags : List Bool}
    (h : s.performAll actions = (t, flags)) : flags.length = actions.length := by
  induction actions generalizing s flags with
  | nil =>
      cases h
      rfl
  | cons a rest ih =>
      rw [performAll] at h
      cases h
      exact congrArg (· + 1) (ih (s := (a.execute s).sequent) rfl)

/-- The sequent after a list of actions is well typed and has only grown, and
    there is one flag per action. -/
theorem Sequent.wellTyped_performAll {s t : Sequent} {actions : List Action}
    {flags : List Bool} (hs : s.WellTyped) (h : s.performAll actions = (t, flags)) :
    t.WellTyped ∧ t.goal = s.goal ∧ s.env.Extends t.env ∧ flags.length = actions.length := by
  have hlen := length_performAll h
  induction actions generalizing s flags with
  | nil =>
      cases h
      exact ⟨hs, rfl, .refl _, rfl⟩
  | cons a rest ih =>
      rw [performAll] at h
      cases h
      obtain ⟨hs', hgoal, hext⟩ := Action.wellTyped_execute (a := a) hs
      obtain ⟨ht, hgoal', hext', -⟩ := ih hs' rfl (length_performAll rfl)
      exact ⟨ht, hgoal'.trans hgoal, hext.trans hext', hlen⟩

/-! ## Antecedents -/

namespace Antecedent

/-- Put the goal of an antecedent, if it has one, in place. -/
def aim (a : Antecedent) (s : Sequent) : Option Sequent :=
  match a.goal with
  | some goal => s.replaceGoal goal
  | none => some s

/-- The child sequent before the actions run. -/
def stage (a : Antecedent) (parent : Sequent) : Option Sequent := do
  let bound ← parent.addIdents a.idents
  let aimed ← a.aim bound
  let extended ← aimed.addHyps a.hyps.toList
  return extended.mark .select a.hyps.toList

/-- An antecedent is its first part followed by its actions. -/
theorem expand_eq_map (a : Antecedent) (s : Sequent) :
    a.expand s = (a.stage s).map fun t => t.performAll a.actions := by
  -- the goal is set in the middle, by the same two cases on both sides
  have hstage : a.expand s = (s.addIdents a.idents).bind fun bound =>
      (a.aim bound).bind fun aimed => (aimed.addHyps a.hyps.toList).bind fun extended =>
        some ((extended.mark .select a.hyps.toList).performAll a.actions) := by
    rw [expand]
    simp only [aim]
    cases a.goal with
    | none => rfl
    | some goal => rfl
  rw [hstage, stage]
  cases s.addIdents a.idents with
  | none => rfl
  | some bound =>
      show (a.aim bound).bind _ = Option.map _ ((a.aim bound).bind _)
      cases a.aim bound with
      | none => rfl
      | some aimed =>
          show (aimed.addHyps a.hyps.toList).bind _ = Option.map _ ((aimed.addHyps _).bind _)
          cases aimed.addHyps a.hyps.toList with
          | none => rfl
          | some extended => rfl

/-- Aiming needs a goal that type-checks, and changes nothing but the goal. -/
theorem aim_eq_some {a : Antecedent} {s t : Sequent} (hs : s.WellTyped) :
    a.aim s = some t ↔
      (∀ g, a.goal = some g → s.env.accepts g = true) ∧
        t = { s with goal := a.goal.getD s.goal } := by
  rw [aim]
  cases a.goal with
  | none =>
      constructor
      · intro h
        cases h
        exact ⟨fun _ hg => (nomatch hg), rfl⟩
      · rintro ⟨-, rfl⟩
        rfl
  | some goal =>
      show s.replaceGoal goal = some t ↔ _
      rw [Sequent.replaceGoal_eq_some hs]
      refine and_congr_left fun _ => ?_
      constructor
      · intro h g hg
        cases hg
        exact h
      · intro h
        exact h goal rfl

/-- A child is staged first, and then its actions are performed. -/
theorem expand_eq_some {a : Antecedent} {s t : Sequent} {flags : List Bool} :
    a.expand s = some (t, flags) ↔
      ∃ mid, a.stage s = some mid ∧ mid.performAll a.actions = (t, flags) := by
  rw [expand_eq_map, Option.map_eq_some_iff]

/-- What the first part of an antecedent makes of a well-typed sequent. -/
structure Staged (a : Antecedent) (s t : Sequent) : Prop where
  env : s.env.extend a.idents = .ok t.env
  goal : t.goal = a.goal.getD s.goal
  has : ∀ p, t.has p = true ↔ s.has p = true ∨ p ∈ a.hyps
  wellTyped : t.WellTyped

/-- Goal and hypotheses of an antecedent type-check once its names are
    bound. -/
def Accepted (a : Antecedent) (env : TypeEnv) : Prop :=
  (∀ g, a.goal = some g → env.accepts g = true) ∧ ∀ p ∈ a.hyps, env.accepts p = true

/-- A staged sequent is as described. -/
theorem staged_of_stage {a : Antecedent} {s t : Sequent} (hs : s.WellTyped)
    (h : a.stage s = some t) : a.Staged s t := by
  rw [stage] at h
  obtain ⟨bound, hbound, h⟩ := Option.bind_eq_some_iff.mp h
  obtain ⟨aimed, haimed, h⟩ := Option.bind_eq_some_iff.mp h
  obtain ⟨extended, hextended, h⟩ := Option.bind_eq_some_iff.mp h
  cases h
  have hgrows := Sequent.grows_addIdents hbound
  -- the names come first: goal and hypotheses are checked in the environment with them
  have hbound' : bound.WellTyped := hgrows.wellTyped hs fun p hp => nomatch hp
  obtain ⟨hgoal, rfl⟩ := (aim_eq_some hbound').mp haimed
  have haimed' : Sequent.WellTyped { bound with goal := a.goal.getD bound.goal } := by
    refine ⟨?_, hbound'.hyps⟩
    cases hg : a.goal with
    | none => exact hbound'.goal
    | some goal => exact hgoal goal hg
  obtain ⟨hacc, rfl⟩ := Sequent.addHyps_eq_some.mp hextended
  have hadded := ((Sequent.grows_mark { bound with goal := a.goal.getD bound.goal } .show
    a.hyps.toList).trans (Sequent.grows_derive _ .plain a.hyps.toList)).mark .select
      a.hyps.toList
  refine ⟨hgrows.env, ?_, fun p => ?_, hadded.wellTyped haimed' fun p hp => Or.inr (hacc p hp)⟩
  · show a.goal.getD bound.goal = a.goal.getD s.goal
    rw [hgrows.goal]
  -- binding the names adds no hypothesis
  · have hbound'' : bound.has p = true ↔ s.has p = true := by
      rw [hgrows.has]
      exact ⟨fun h => h.resolve_right List.not_mem_nil, Or.inl⟩
    rw [hadded.has]
    exact or_congr hbound'' Iff.rfl

/-- Staging succeeds when the names can be bound and goal and hypotheses then
    type-check. -/
theorem exists_stage {a : Antecedent} {s : Sequent} {env : TypeEnv} (hs : s.WellTyped)
    (henv : s.env.extend a.idents = .ok env) (hacc : a.Accepted env) :
    ∃ t, a.stage s = some t := by
  have hbound : s.addIdents a.idents = some { s with env := env } :=
    Sequent.addIdents_eq_some.mpr ⟨env, henv, rfl⟩
  have hbound' : Sequent.WellTyped { s with env := env } :=
    (Sequent.grows_addIdents hbound).wellTyped hs fun p hp => nomatch hp
  have haimed := (aim_eq_some hbound').mpr ⟨hacc.1, rfl⟩
  have hextended := (Sequent.addHyps_eq_some
    (s := { s with env := env, goal := a.goal.getD s.goal })).mpr ⟨hacc.2, rfl⟩
  rw [stage, hbound]
  show ∃ t, (a.aim { s with env := env }).bind _ = some t
  rw [haimed]
  show ∃ t, Option.bind (Sequent.addHyps _ a.hyps.toList) _ = some t
  rw [hextended]
  exact ⟨_, rfl⟩

/-- So does the whole antecedent, since actions never fail. -/
theorem exists_expand {a : Antecedent} {s : Sequent} {env : TypeEnv} (hs : s.WellTyped)
    (henv : s.env.extend a.idents = .ok env) (hacc : a.Accepted env) :
    ∃ kid, a.expand s = some kid := by
  obtain ⟨t, ht⟩ := exists_stage hs henv hacc
  exact ⟨t.performAll a.actions, expand_eq_some.mpr ⟨t, ht, rfl⟩⟩

/-- A staged sequent has accepted what the antecedent brought in. -/
theorem Staged.accepted {a : Antecedent} {s t : Sequent} (h : a.Staged s t) :
    a.Accepted t.env := by
  constructor
  · intro g hg
    have hgoal := h.goal
    rw [hg] at hgoal
    rw [← h.wellTyped.goal, hgoal]
    rfl
  · intro p hp
    exact h.wellTyped.hyps p ((h.has p).mpr (Or.inr hp))

/-- The expansions of several antecedents, one by one. -/
theorem expandAll_eq_some {s : Sequent} {as : List Antecedent}
    {cs : List (Sequent × List Bool)} :
    expandAll s as = some cs ↔ List.Forall₂ (fun a c => a.expand s = some c) as cs := by
  induction as generalizing cs with
  | nil =>
      rw [expandAll, List.forall₂_nil_left_iff]
      exact ⟨fun h => (Option.some.inj h).symm, fun h => h ▸ rfl⟩
  | cons a as ih =>
      rw [expandAll, List.forall₂_cons_left_iff]
      constructor
      · intro h
        obtain ⟨c, hc, h⟩ := Option.bind_eq_some_iff.mp h
        obtain ⟨rest, hrest, h⟩ := Option.bind_eq_some_iff.mp h
        cases h
        exact ⟨c, rest, hc, ih.mp hrest, rfl⟩
      · rintro ⟨c, rest, hc, hrest, rfl⟩
        refine Option.bind_eq_some_iff.mpr ⟨c, hc, ?_⟩
        exact Option.bind_eq_some_iff.mpr ⟨rest, ih.mpr hrest, rfl⟩

/-- A child sequent is well typed. -/
theorem wellTyped_expand {a : Antecedent} {s t : Sequent} {flags : List Bool}
    (hs : s.WellTyped) (h : a.expand s = some (t, flags)) : t.WellTyped := by
  obtain ⟨mid, hmid, hall⟩ := expand_eq_some.mp h
  exact (Sequent.wellTyped_performAll (staged_of_stage hs hmid).wellTyped hall).1

end Antecedent

/-! ## Rules -/

namespace Rule

/-- A rule fits where its needed hypotheses are and where its goal is, if it
    has one. -/
theorem fits_iff {r : Rule} {s : Sequent} :
    r.fits s = true ↔
      (∀ p ∈ r.needed, s.has p = true) ∧ ∀ g, r.goal = some g → g = s.goal := by
  rw [fits, Bool.and_eq_true, Sequent.hasAll_iff, Bool.or_eq_true]
  refine and_congr_right fun _ => ?_
  cases hg : r.goal with
  | none => exact ⟨fun _ _ h => (nomatch h), fun _ => Or.inl rfl⟩
  | some goal =>
      constructor
      · rintro (h | h) g hgoal
        · exact nomatch h
        · cases hgoal
          exact Option.some.inj (of_decide_eq_true h)
      · intro h
        exact Or.inr (decide_eq_true (congrArg some (h goal rfl)))

/-- A rule expands when it fits and each of its antecedents does. -/
theorem expand_eq_some {r : Rule} {s : Sequent} {kids : List Sequent}
    {skipped : SkippedActions} :
    r.expand s = some (kids, skipped) ↔
      r.fits s = true ∧ ∃ cs, Antecedent.expandAll s r.antecedents = some cs ∧
        cs.map Prod.fst = kids ∧ ⟨cs.map Prod.snd⟩ = skipped := by
  rw [expand]
  by_cases hfits : r.fits s = true
  · rw [if_pos hfits, Option.map_eq_some_iff]
    constructor
    · rintro ⟨cs, hcs, heq⟩
      cases heq
      exact ⟨hfits, cs, hcs, rfl, rfl⟩
    · rintro ⟨-, cs, hcs, rfl, rfl⟩
      exact ⟨cs, hcs, rfl⟩
  · rw [if_neg hfits]
    constructor
    · intro h
      exact nomatch h
    · rintro ⟨h, -⟩
      exact absurd h hfits

/-- A rule gives one child per antecedent. -/
theorem length_expand {r : Rule} {s : Sequent} {kids : List Sequent}
    {skipped : SkippedActions} (h : r.expand s = some (kids, skipped)) :
    kids.length = r.antecedents.length := by
  obtain ⟨-, cs, hcs, rfl, -⟩ := expand_eq_some.mp h
  rw [List.length_map, (Antecedent.expandAll_eq_some.mp hcs).length_eq]

/-- The children of a well-typed sequent are well typed. -/
theorem wellTyped_expand {r : Rule} {s : Sequent} {kids : List Sequent}
    {skipped : SkippedActions} (hs : s.WellTyped) (h : r.expand s = some (kids, skipped)) :
    ∀ k ∈ kids, k.WellTyped := by
  obtain ⟨-, cs, hcs, rfl, -⟩ := expand_eq_some.mp h
  intro k hk
  obtain ⟨⟨k, flags⟩, hc, rfl⟩ := List.mem_map.mp hk
  obtain ⟨a, -, ha⟩ := exists_of_mem_right (Antecedent.expandAll_eq_some.mp hcs) hc
  exact Antecedent.wellTyped_expand hs ha

end Rule

end SequentProver
