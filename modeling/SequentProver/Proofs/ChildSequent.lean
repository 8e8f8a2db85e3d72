import SequentProver.Proofs.Coherence

/-! # What a child sequent contains

    An antecedent with its actions makes a child of a sequent, and reports
    which actions were skipped.  From the report alone one can tell what the
    child has: the flags say which inferences took effect, and nothing else
    adds hypotheses or names.  What is given stays as it was: marks and new
    hypotheses leave it alone.

    Route:
    1. the given hypotheses through every change;
    2. `effective`, the actions that were not skipped, and how a sequent
       grows through a list of actions;
    3. an action is skipped exactly when it is an inference that adds
       nothing;
    4. `Contents`, the child as a whole. -/

namespace SequentProver

/-- What does not count may be inserted, as long as it takes the place of
    nothing that counts. -/
theorem filter_insertBy {α κ : Type} [Ord κ] {key : α → κ} {counts : α → Bool} {a : α}
    (ha : counts a = false) {l : List α}
    (hl : ∀ b ∈ l, compare (key a) (key b) = .eq → counts b = false) :
    (insertBy key a l).filter counts = l.filter counts := by
  induction l with
  | nil =>
      rw [insertBy, List.filter_cons, if_neg (Bool.eq_false_iff.mp ha)]
  | cons b rest ih =>
      rw [insertBy]
      split
      · rw [List.filter_cons, if_neg (Bool.eq_false_iff.mp ha)]
      · rename_i heq
        have hb : counts b = false := hl b List.mem_cons_self heq
        rw [List.filter_cons, List.filter_cons, if_neg (Bool.eq_false_iff.mp ha),
          if_neg (Bool.eq_false_iff.mp hb)]
      · rw [List.filter_cons, List.filter_cons, ih]
        intro c hc
        exact hl c (List.mem_cons_of_mem _ hc)

/-! ## Given hypotheses -/

namespace Sequent

variable {s t : Sequent}

/-- Marking hypotheses does not touch where they come from. -/
theorem ofOrigin_mark (s : Sequent) (m : Mark) (ps : List Pred) (origin : Origin) :
    (s.mark m ps).ofOrigin origin = s.ofOrigin origin := by
  show ((s.hyps.toList.map _).filter _).map _ = (s.hyps.toList.filter _).map _
  rw [List.filter_map, List.map_map]
  -- a mark changes the standing of a hypothesis and nothing else
  have hkeeps : ∀ h : Hypothesis,
      (if h.pred ∈ ps then { h with standing := m.apply h.standing } else h).origin = h.origin ∧
        (if h.pred ∈ ps then { h with standing := m.apply h.standing } else h).pred = h.pred := by
    intro h
    by_cases hmem : h.pred ∈ ps
    · rw [if_pos hmem]
      exact ⟨rfl, rfl⟩
    · rw [if_neg hmem]
      exact ⟨rfl, rfl⟩
  have hfilter : ∀ h ∈ s.hyps.toList, ((fun h : Hypothesis => decide (h.origin = origin)) ∘
      fun h => if h.pred ∈ ps then { h with standing := m.apply h.standing } else h) h =
        decide (h.origin = origin) := by
    intro h _
    rw [Function.comp_apply, (hkeeps h).1]
  rw [List.filter_congr hfilter]
  refine List.map_congr_left ?_
  intro h _
  exact (hkeeps h).2

/-- Derived entries that take the place of no given one leave the given ones
    alone. -/
theorem filter_given_insertAll (standing : Standing) {ps : List Pred}
    {hyps : SortedBy Hypothesis.pred}
    (hfree : ∀ h ∈ hyps.toList, h.pred ∈ ps → h.origin = .derived) :
    (hyps.insertAll (ps.map fun p => ⟨p, .derived, standing⟩)).toList.filter
        (fun h => h.origin = .given) = hyps.toList.filter (fun h => h.origin = .given) := by
  induction ps generalizing hyps with
  | nil => rfl
  | cons p rest ih =>
      show ((hyps.insert ⟨p, .derived, standing⟩).insertAll _).toList.filter _ = _
      rw [ih]
      · refine filter_insertBy rfl ?_
        intro h hmem heq
        have hpred : p = h.pred := Std.LawfulEqCmp.eq_of_compare heq
        rw [hfree h hmem (hpred ▸ List.mem_cons_self)]
        rfl
      · intro h hmem hrest
        rcases mem_of_mem_insertBy hmem with rfl | hmem
        · rfl
        · exact hfree h hmem (List.mem_cons_of_mem _ hrest)

/-- Only what is not there yet is derived. -/
theorem given_derive (s : Sequent) (standing : Standing) (ps : List Pred) :
    (s.derive standing ps).ofOrigin .given = s.ofOrigin .given := by
  refine congrArg (List.map Hypothesis.pred) (filter_given_insertAll standing ?_)
  intro h hmem hnew
  have hthere : s.has h.pred = true := SortedBy.hasKey_iff.mpr ⟨h, hmem, rfl⟩
  have hnot := (List.mem_filter.mp hnew).2
  rw [hthere] at hnot
  cases hnot

/-- Inferring leaves the given hypotheses alone. -/
theorem given_forwardInfer {sources inferred : List Pred} {idents : List TypedName}
    (h : s.forwardInfer sources idents inferred = some t) :
    t.ofOrigin .given = s.ofOrigin .given := by
  rw [forwardInfer] at h
  cases hbound : s.addIdents idents with
  | none =>
      rw [hbound] at h
      cases h
  | some bound =>
      rw [hbound] at h
      obtain ⟨env, -, rfl⟩ := addIdents_eq_some.mp hbound
      simp only at h
      split at h
      · cases h
        rw [given_derive]
        rfl
      · cases h

end Sequent

/-- No action changes what is given. -/
theorem Action.given_execute (a : Action) (s : Sequent) :
    (a.execute s).sequent.ofOrigin .given = s.ofOrigin .given := by
  cases a with
  | mark m hyps => exact s.ofOrigin_mark m hyps.toList .given
  | infer sources idents inferred =>
      rw [execute]
      cases htry : s.tryInfer sources idents inferred with
      | none => rfl
      | some t =>
          rw [Sequent.tryInfer] at htry
          split at htry
          · exact Sequent.given_forwardInfer htry
          · cases htry
  -- marks do not count here, so only the inference in the middle matters
  | replace sources replacement toHide =>
      rw [execute, Sequent.performReplace]
      by_cases hsources : s.hasAll sources.toList = true
      · by_cases hthere : s.hasAll replacement.toList = true
        · simp only [hsources, hthere, Bool.not_true, Bool.false_eq_true, if_false, if_true]
          rw [Sequent.ofOrigin_mark, Sequent.ofOrigin_mark]
        · simp only [hsources, hthere, Bool.not_true, Bool.false_eq_true, if_false]
          cases hinfer : s.forwardInfer sources.toList [] replacement.toList with
          | none => rfl
          | some t =>
              show ((t.mark _ _).mark _ _).ofOrigin .given = _
              rw [Sequent.ofOrigin_mark, Sequent.ofOrigin_mark, Sequent.given_forwardInfer hinfer]
      · simp only [hsources, Bool.not_false, if_true]

/-! ## Actions that take effect -/

namespace Action

/-- The actions that are not flagged as skipped. -/
def effective (actions : List Action) (flags : List Bool) : List Action :=
  ((actions.zip flags).filter fun e => !e.2).map Prod.fst

/-- A skipped action has no effect. -/
theorem effective_cons_skipped (a : Action) (actions : List Action) (flags : List Bool) :
    effective (a :: actions) (true :: flags) = effective actions flags := rfl

/-- An action that is not skipped comes first. -/
theorem effective_cons_taken (a : Action) (actions : List Action) (flags : List Bool) :
    effective (a :: actions) (false :: flags) = a :: effective actions flags := rfl

/-- An inference takes effect only if something it adds is new. -/
theorem exists_new {a : Action} {s : Sequent} (hinference : a.added?.isSome = true)
    (htaken : (a.execute s).skipped = false) : ∃ p ∈ a.added, s.has p = false := by
  -- an inference is taken only if one of its predicates is missing
  have hnew : ∀ ps : SortedSet Pred, s.hasAll ps.toList = false → ∃ p ∈ ps, s.has p = false := by
    intro ps hps
    obtain ⟨p, hp, hnot⟩ := List.all_eq_false.mp hps
    exact ⟨p, hp, Bool.eq_false_iff.mpr hnot⟩
  cases a with
  | mark m hyps => cases hinference
  | infer sources idents inferred =>
      refine hnew inferred ?_
      rw [execute] at htaken
      cases htry : s.tryInfer sources idents inferred with
      | none =>
          rw [htry] at htaken
          cases htaken
      | some t =>
          rw [Sequent.tryInfer] at htry
          split at htry
          · rename_i hcond
            rw [Bool.and_eq_true, Bool.not_eq_true'] at hcond
            exact hcond.2
          · cases htry
  | replace sources replacement toHide =>
      refine hnew replacement ?_
      rw [execute, Sequent.performReplace] at htaken
      by_cases hsources : s.hasAll sources.toList = true
      · by_cases hthere : s.hasAll replacement.toList = true
        · simp only [hsources, hthere, Bool.not_true, Bool.false_eq_true, if_false,
            if_true] at htaken
          cases htaken
        · exact Bool.eq_false_iff.mpr hthere
      · simp only [hsources, Bool.not_false, if_true] at htaken
        cases htaken

/-- An action is skipped exactly when it is an inference and no hypothesis
    comes of it. -/
theorem skipped_iff (a : Action) (s : Sequent) :
    (a.execute s).skipped = true ↔
      a.added?.isSome = true ∧ ∀ p, (a.execute s).sequent.has p = true → s.has p = true := by
  rcases a.execute_cases s with ⟨hskipped, hgrows⟩ | ⟨htaken, hfires⟩
  · refine ⟨fun _ => ⟨?_, ?_⟩, fun _ => hskipped⟩
    · cases a with
      | mark m hyps => cases hskipped
      | infer sources idents inferred => rfl
      | replace sources replacement toHide => rfl
    · intro p hp
      exact ((hgrows.has p).mp hp).resolve_right List.not_mem_nil
  · rw [htaken]
    constructor
    · intro h
      cases h
    · rintro ⟨hinference, hnothing⟩
      -- what is new would have been there
      obtain ⟨p, hp, hnew⟩ := exists_new hinference htaken
      rw [hnothing p ((hfires.grows.has p).mpr (.inr hp))] at hnew
      cases hnew

end Action

namespace Sequent

variable {s t : Sequent} {actions : List Action} {flags : List Bool}

/-- A sequent grows by the names and predicates of the actions that take
    effect. -/
theorem grows_performAll (h : s.performAll actions = (t, flags)) :
    s.Grows ((Action.effective actions flags).flatMap Action.names)
      ((Action.effective actions flags).flatMap fun a => a.added.toList) t := by
  induction actions generalizing s flags with
  | nil =>
      cases h
      exact .refl _
  | cons a rest ih =>
      rw [performAll] at h
      cases h
      have hrest := ih (s := (a.execute s).sequent) rfl
      rcases a.execute_cases s with ⟨hskipped, hgrows⟩ | ⟨htaken, hfires⟩
      · rw [hskipped, Action.effective_cons_skipped]
        exact hgrows.trans hrest
      · rw [htaken, Action.effective_cons_taken, List.flatMap_cons, List.flatMap_cons]
        exact hfires.grows.trans hrest

/-- Actions leave the given hypotheses alone. -/
theorem given_performAll (h : s.performAll actions = (t, flags)) :
    t.ofOrigin .given = s.ofOrigin .given := by
  induction actions generalizing s flags with
  | nil =>
      cases h
      rfl
  | cons a rest ih =>
      rw [performAll] at h
      cases h
      rw [ih (s := (a.execute s).sequent) rfl, a.given_execute]

/-- A run of actions, stopped before the action at `i` and right after it. -/
theorem performAll_at (h : s.performAll actions = (t, flags)) {i : Nat} {a : Action}
    (ha : actions[i]? = some a) :
    ∃ before, s.performAll (actions.take i) = (before, flags.take i) ∧
      s.performAll (actions.take (i + 1)) = ((a.execute before).sequent, flags.take (i + 1)) ∧
      flags[i]? = some (a.execute before).skipped := by
  -- `i` and the list shrink together, from the sequent after the first action
  induction actions generalizing s flags i with
  | nil => cases ha
  | cons b rest ih =>
      rw [performAll] at h
      cases h
      cases i with
      | zero =>
          cases ha
          exact ⟨s, rfl, rfl, rfl⟩
      | succ i =>
          obtain ⟨before, hbefore, hafter, hflag⟩ :=
            ih (s := (b.execute s).sequent) rfl ha
          refine ⟨before, ?_, ?_, hflag⟩
          · rw [List.take_succ_cons, performAll, hbefore]
            rfl
          · rw [List.take_succ_cons, performAll, hafter]
            rfl

end Sequent

/-! ## Children -/

namespace Antecedent

variable {a : Antecedent} {s c : Sequent} {flags : List Bool}

/-- The antecedent with its first `i` actions only. -/
def upTo (a : Antecedent) (i : Nat) : Antecedent := { a with actions := a.actions.take i }

/-- The names that are bound in a child: those of the antecedent, then those
    of the actions that took effect. -/
def newNames (a : Antecedent) (flags : List Bool) : List TypedName :=
  a.idents ++ (Action.effective a.actions flags).flatMap Action.names

/-- What a child of `s` contains, seen from the flags of its actions. -/
structure Contents (a : Antecedent) (s c : Sequent) (flags : List Bool) : Prop where
  length : flags.length = a.actions.length
  goal : c.goal = a.goal.getD s.goal
  given : c.ofOrigin .given = s.ofOrigin .given
  hypotheses : ∀ p, p ∈ c.hypotheses ↔
    p ∈ s.hypotheses ∨ p ∈ a.hyps ∨ ∃ x ∈ Action.effective a.actions flags, p ∈ x.added
  /-- The names can be bound in `s`, and then the environment is that of the
      child. -/
  env : s.env.extend (a.newNames flags) = .ok c.env
  bindings : ∀ n : TypedName,
    c.env.bindsAs n = true ↔ s.env.bindsAs n = true ∨ n ∈ a.newNames flags
  distinct : ((a.newNames flags).map TypedName.name).Nodup
  unbound : ∀ n ∈ a.newNames flags, s.env.binds n.name = false
  /-- An action is seen between the child that stops before it and the one
      that stops after it. -/
  skipped : ∀ i x, a.actions[i]? = some x → ∃ before after,
    (a.upTo i).expand s = some (before, flags.take i) ∧
      (a.upTo (i + 1)).expand s = some (after, flags.take (i + 1)) ∧
      x.perform before = after ∧
      (flags[i]? = some true ↔
        x.added?.isSome = true ∧ ∀ p, p ∈ after.hypotheses → p ∈ before.hypotheses)

/-- Aiming changes nothing but the goal. -/
theorem eq_of_aim {t : Sequent} (h : a.aim s = some t) :
    t = { s with goal := a.goal.getD s.goal } := by
  rw [aim] at h
  cases hgoal : a.goal with
  | none =>
      rw [hgoal] at h
      cases h
      rfl
  | some goal =>
      rw [hgoal] at h
      -- the goal is the same predicate either way, whether it was checked or not
      replace h : s.replaceGoal goal = some t := h
      rw [Sequent.replaceGoal] at h
      split at h
      · rename_i heq
        cases h
        rw [heq]
        rfl
      · split at h
        · cases h
          rfl
        · cases h

/-- What the first part of an antecedent makes of a sequent. -/
theorem stage_contents {mid : Sequent} (h : a.stage s = some mid) :
    s.env.extend a.idents = .ok mid.env ∧ mid.goal = a.goal.getD s.goal ∧
      mid.ofOrigin .given = s.ofOrigin .given ∧
      ∀ p, mid.has p = true ↔ s.has p = true ∨ p ∈ a.hyps := by
  rw [stage] at h
  obtain ⟨bound, hbound, h⟩ := Option.bind_eq_some_iff.mp h
  obtain ⟨aimed, haimed, h⟩ := Option.bind_eq_some_iff.mp h
  obtain ⟨extended, hextended, h⟩ := Option.bind_eq_some_iff.mp h
  cases h
  obtain ⟨env, henv, rfl⟩ := Sequent.addIdents_eq_some.mp hbound
  obtain rfl := eq_of_aim haimed
  obtain ⟨-, rfl⟩ := Sequent.addHyps_eq_some.mp hextended
  refine ⟨henv, rfl, ?_, ?_⟩
  · rw [Sequent.ofOrigin_mark, Sequent.given_derive, Sequent.ofOrigin_mark]
    rfl
  · have hgrows := ((Sequent.grows_mark { s with env := env, goal := a.goal.getD s.goal } .show
      a.hyps.toList).trans (Sequent.grows_derive _ .plain a.hyps.toList)).mark .select
        a.hyps.toList
    exact hgrows.has

/-- The child that stops before some action is one of the antecedent with
    fewer actions. -/
theorem expand_upTo {mid t : Sequent} {i : Nat} {flags : List Bool} (h : a.stage s = some mid)
    (hrun : mid.performAll (a.actions.take i) = (t, flags)) :
    (a.upTo i).expand s = some (t, flags) :=
  expand_eq_some.mpr ⟨mid, h, hrun⟩

/-- What a child contains.  The goal and the added hypotheses are those of the
    antecedent, what is given stays, and what the actions add and bind can be
    read off their flags; an action is skipped exactly when it is an inference
    that adds nothing. -/
theorem child_contents (h : a.expand s = some (c, flags)) : a.Contents s c flags := by
  obtain ⟨mid, hmid, hrun⟩ := expand_eq_some.mp h
  obtain ⟨henv, hgoal, hgiven, hhas⟩ := stage_contents hmid
  have hgrows := Sequent.grows_performAll hrun
  have hbound : s.env.extend (a.newNames flags) = .ok c.env :=
    TypeEnv.extend_append.mpr ⟨mid.env, henv, hgrows.env⟩
  obtain ⟨hdistinct, hunbound⟩ := TypeEnv.fresh_of_extend hbound
  refine ⟨Sequent.length_performAll hrun, hgrows.goal.trans hgoal,
    (Sequent.given_performAll hrun).trans hgiven, ?_, hbound, ?_, hdistinct, ?_, ?_⟩
  · intro p
    rw [Sequent.mem_hypotheses, Sequent.mem_hypotheses, hgrows.has, hhas, List.mem_flatMap,
      or_assoc]
    rfl
  · intro n
    exact TypeEnv.bindsAs_extend hbound
  · intro n hn
    exact TypeEnv.binds_eq_false.mpr (hunbound n hn)
  -- the flag of an action is set by the sequent that the actions before it leave
  · intro i x hx
    obtain ⟨before, hbefore, hafter, hflag⟩ := Sequent.performAll_at hrun hx
    refine ⟨before, _, expand_upTo hmid hbefore, expand_upTo hmid hafter, rfl, ?_⟩
    rw [hflag, Option.some.injEq, x.skipped_iff]
    simp only [Sequent.mem_hypotheses]

/-- A name and a hypothesis come in; then an inference binds another name, a
    second one clashes with it, a mark hides what is given, and of two
    replacements the first adds nothing. -/
def branching : Antecedent where
  goal := some .top
  hyps := SortedBy.ofList [.bottom]
  idents := [⟨"x", .integer⟩]
  actions := [
    .infer (SortedBy.ofList [.top]) [⟨"y", .integer⟩] (SortedBy.ofList [.not .top]),
    .infer ∅ [⟨"y", .boolean⟩] (SortedBy.ofList [.not .bottom]),
    .mark .hide (SortedBy.ofList [.top]),
    .replace (SortedBy.ofList [.bottom]) (SortedBy.ofList [.top, .bottom]) ∅,
    .replace (SortedBy.ofList [.not .top]) (SortedBy.ofList [.not (.not .top)]) ∅]

theorem branching_contents :
    ∃ c flags, branching.expand ⟨.empty, SortedBy.ofList [⟨.top, .given, .plain⟩], .bottom⟩ =
        some (c, flags) ∧ flags = [false, true, false, true, false] ∧
      branching.newNames flags = [⟨"x", .integer⟩, ⟨"y", .integer⟩] ∧
      branching.Contents ⟨.empty, SortedBy.ofList [⟨.top, .given, .plain⟩], .bottom⟩ c flags := by
  have hflags : (branching.expand
      ⟨.empty, SortedBy.ofList [⟨.top, .given, .plain⟩], .bottom⟩).any
        (fun child => child.2 = [false, true, false, true, false]) = true := by decide +kernel
  obtain ⟨⟨c, flags⟩, hchild, hflags⟩ := (Option.any_eq_true _ _).mp hflags
  obtain rfl : flags = [false, true, false, true, false] := of_decide_eq_true hflags
  exact ⟨c, _, hchild, rfl, rfl, child_contents hchild⟩

end Antecedent

end SequentProver
