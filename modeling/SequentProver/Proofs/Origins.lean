import SequentProver.Proofs.Growth

/-! # Where hypotheses come from

    Two sequents are the same if they differ at most in which hypotheses
    are given and which derived.  `forgetOrigins` counts every hypothesis as
    derived, so being the same is having the same image.  No operation on a
    sequent looks at origins: each of them commutes with forgetting, up to
    the expansion of a whole rule.  So a rule does the same to sequents that
    are the same. -/

namespace SequentProver

/-- Insertion commutes with a change of members that keeps their keys. -/
theorem map_insertBy {α κ : Type} [Ord κ] {key : α → κ} {f : α → α}
    (hf : ∀ a, key (f a) = key a) (a : α) (l : List α) :
    (insertBy key a l).map f = insertBy key (f a) (l.map f) := by
  induction l with
  | nil => rfl
  | cons b rest ih =>
      rw [insertBy, List.map_cons, insertBy, hf, hf]
      split
      · rfl
      · rfl
      · rw [List.map_cons, ih]

/-- The hypothesis as a derived one. -/
def Hypothesis.forgetOrigin (h : Hypothesis) : Hypothesis := { h with origin := .derived }

theorem Hypothesis.pred_forgetOrigin (h : Hypothesis) : h.forgetOrigin.pred = h.pred := rfl

namespace Sequent

variable {s t : Sequent}

/-- The sequent with every hypothesis counted as derived. -/
def forgetOrigins (s : Sequent) : Sequent :=
  { s with hyps := s.hyps.adjust Hypothesis.forgetOrigin Hypothesis.pred_forgetOrigin }

/-- Sequents are the same if they have the same image. -/
theorem sameAs_iff : s.sameAs t = true ↔ s.forgetOrigins = t.forgetOrigins := by
  -- what is left of a hypothesis is its predicate and its standing
  have hview : ∀ u : Sequent, u.forgetOrigins.hyps.toList =
      (u.hyps.toList.map fun h => (h.pred, h.standing)).map
        fun v => (⟨v.1, .derived, v.2⟩ : Hypothesis) := fun u => by
    rw [List.map_map]
    rfl
  have hinj : Function.Injective fun v : Pred × Standing =>
      (⟨v.1, .derived, v.2⟩ : Hypothesis) := by
    rintro ⟨p, a⟩ ⟨q, b⟩ h
    cases h
    rfl
  simp only [sameAs, Bool.and_eq_true, decide_eq_true_eq]
  constructor
  · rintro ⟨⟨hgoal, henv⟩, hhyps⟩
    have htable : s.forgetOrigins.hyps = t.forgetOrigins.hyps := by
      apply SortedBy.ext_toList
      rw [hview, hview, hhyps]
    calc s.forgetOrigins
        = ⟨s.env, s.forgetOrigins.hyps, s.goal⟩ := rfl
      _ = ⟨t.env, t.forgetOrigins.hyps, t.goal⟩ := by rw [henv, htable, hgoal]
  · intro h
    have htable := congrArg (fun u : Sequent => u.hyps.toList) h
    simp only [hview] at htable
    have hgoal : s.forgetOrigins.goal = t.forgetOrigins.goal := by rw [h]
    have henv : s.forgetOrigins.env = t.forgetOrigins.env := by rw [h]
    exact ⟨⟨hgoal, henv⟩, hinj.list_map htable⟩

/-! ## What is seen of a sequent -/

/-- Having a hypothesis has nothing to do with origins. -/
@[simp]
theorem has_forgetOrigins (s : Sequent) (p : Pred) : s.forgetOrigins.has p = s.has p := by
  rw [has, forgetOrigins, SortedBy.hasKey_adjust, has]

@[simp]
theorem hasAll_forgetOrigins (s : Sequent) (ps : List Pred) :
    s.forgetOrigins.hasAll ps = s.hasAll ps := by
  rw [hasAll, hasAll, funext s.has_forgetOrigins]

@[simp]
theorem stands_forgetOrigins (s : Sequent) (standing : Standing) (p : Pred) :
    s.forgetOrigins.stands standing p = s.stands standing p := by
  have hfind : s.forgetOrigins.hypothesis? p =
      (s.hypothesis? p).map Hypothesis.forgetOrigin := by
    show (s.hyps.toList.map Hypothesis.forgetOrigin).find? (fun h => h.pred = p) = _
    rw [List.find?_map]
    rfl
  rw [stands, stands, hfind]
  cases s.hypothesis? p with
  | none => rfl
  | some h => rfl

@[simp]
theorem inferredStanding_forgetOrigins (s : Sequent) (sources : List Pred) :
    s.forgetOrigins.inferredStanding sources = s.inferredStanding sources := by
  have hstands : ∀ standing, s.forgetOrigins.stands standing = s.stands standing :=
    fun standing => funext (s.stands_forgetOrigins standing)
  rw [inferredStanding, inferredStanding, hstands, hstands]

/-! ## Changes -/

/-- Marking, with origins forgotten before or after. -/
theorem mark_forgetOrigins (s : Sequent) (m : Mark) (ps : List Pred) :
    s.forgetOrigins.mark m ps = (s.mark m ps).forgetOrigins := by
  refine congrArg (Sequent.mk s.env · s.goal) (SortedBy.ext_toList ?_)
  show (s.hyps.toList.map _).map _ = (s.hyps.toList.map _).map _
  rw [List.map_map, List.map_map]
  refine List.map_congr_left fun h _ => ?_
  show (if h.pred ∈ ps then _ else _) = Hypothesis.forgetOrigin (if h.pred ∈ ps then _ else _)
  by_cases hmem : h.pred ∈ ps
  · rw [if_pos hmem, if_pos hmem]
    rfl
  · rw [if_neg hmem, if_neg hmem]

/-- What is derived has no other origin to forget. -/
theorem derive_forgetOrigins (s : Sequent) (standing : Standing) (ps : List Pred) :
    s.forgetOrigins.derive standing ps = (s.derive standing ps).forgetOrigins := by
  -- one entry after the other, on any hypotheses to start from
  have hinsert : ∀ (qs : List Pred) (hyps : SortedBy Hypothesis.pred),
      (hyps.adjust _ Hypothesis.pred_forgetOrigin).insertAll
          (qs.map fun p => ⟨p, .derived, standing⟩) =
        (hyps.insertAll (qs.map fun p => ⟨p, .derived, standing⟩)).adjust _
          Hypothesis.pred_forgetOrigin := by
    intro qs
    induction qs with
    | nil => exact fun hyps => rfl
    | cons p rest ih =>
        intro hyps
        have hone : (hyps.adjust _ Hypothesis.pred_forgetOrigin).insert ⟨p, .derived, standing⟩ =
            (hyps.insert ⟨p, .derived, standing⟩).adjust _ Hypothesis.pred_forgetOrigin :=
          SortedBy.ext_toList
            (map_insertBy Hypothesis.pred_forgetOrigin ⟨p, .derived, standing⟩ hyps.toList).symm
        show ((hyps.adjust _ _).insert _).insertAll _ = _
        rw [hone, ih]
        rfl
  rw [derive, derive]
  simp only [has_forgetOrigins]
  exact congrArg (Sequent.mk s.env · s.goal) (hinsert _ s.hyps)

theorem addIdents_forgetOrigins (s : Sequent) (idents : List TypedName) :
    s.forgetOrigins.addIdents idents = (s.addIdents idents).map forgetOrigins := by
  have henv : s.forgetOrigins.env = s.env := rfl
  rw [addIdents, addIdents, henv]
  cases s.env.extend idents with
  | error e => rfl
  | ok env => rfl

theorem replaceGoal_forgetOrigins (s : Sequent) (goal : Pred) :
    s.forgetOrigins.replaceGoal goal = (s.replaceGoal goal).map forgetOrigins := by
  show (if goal = s.goal then _ else if s.env.accepts goal then _ else none) = _
  rw [replaceGoal]
  split
  · rfl
  · split <;> rfl

theorem addHyps_forgetOrigins (s : Sequent) (ps : List Pred) :
    s.forgetOrigins.addHyps ps = (s.addHyps ps).map forgetOrigins := by
  show (if ps.all s.env.accepts then _ else none) = _
  rw [addHyps, mark_forgetOrigins, derive_forgetOrigins]
  split <;> rfl

theorem forwardInfer_forgetOrigins (s : Sequent) (sources : List Pred)
    (idents : List TypedName) (inferred : List Pred) :
    s.forgetOrigins.forwardInfer sources idents inferred =
      (s.forwardInfer sources idents inferred).map forgetOrigins := by
  rw [forwardInfer, forwardInfer, addIdents_forgetOrigins]
  cases s.addIdents idents with
  | none => rfl
  | some extended =>
      simp only [Option.map_some, has_forgetOrigins, inferredStanding_forgetOrigins,
        derive_forgetOrigins]
      show (if (List.filter _ inferred).all extended.env.accepts then _ else none) = _
      split <;> rfl

theorem tryInfer_forgetOrigins (s : Sequent) (sources : SortedSet Pred)
    (idents : List TypedName) (inferred : SortedSet Pred) :
    s.forgetOrigins.tryInfer sources idents inferred =
      (s.tryInfer sources idents inferred).map forgetOrigins := by
  rw [tryInfer, tryInfer]
  simp only [hasAll_forgetOrigins, forwardInfer_forgetOrigins]
  show (if s.hasAll _ && !(idents.any fun n => s.env.binds n.name) && _ then _ else none) = _
  split <;> rfl

end Sequent

/-! ## Actions -/

/-- The outcome of an action with origins forgotten. -/
def Performed.forgetOrigins (p : Performed) : Performed := ⟨p.sequent.forgetOrigins, p.skipped⟩

theorem Sequent.performReplace_forgetOrigins (s : Sequent)
    (sources replacement toHide : SortedSet Pred) :
    s.forgetOrigins.performReplace sources replacement toHide =
      (s.performReplace sources replacement toHide).forgetOrigins := by
  rw [performReplace, performReplace]
  simp only [hasAll_forgetOrigins, forwardInfer_forgetOrigins, mark_forgetOrigins]
  split
  · rfl
  · split
    · rfl
    · cases s.forwardInfer sources.toList [] replacement.toList with
      | none => rfl
      | some t =>
          simp only [Option.map_some, mark_forgetOrigins]
          rfl

theorem Action.execute_forgetOrigins (a : Action) (s : Sequent) :
    a.execute s.forgetOrigins = (a.execute s).forgetOrigins := by
  cases a with
  | mark m hyps =>
      rw [execute, execute, Sequent.mark_forgetOrigins]
      rfl
  | infer sources idents inferred =>
      rw [execute, execute, Sequent.tryInfer_forgetOrigins]
      cases s.tryInfer sources idents inferred with
      | none => rfl
      | some t => rfl
  | replace sources replacement toHide =>
      exact s.performReplace_forgetOrigins sources replacement toHide

/-- Performing actions, likewise; the same ones are skipped. -/
theorem Sequent.performAll_forgetOrigins (s : Sequent) (actions : List Action) :
    s.forgetOrigins.performAll actions =
      ((s.performAll actions).1.forgetOrigins, (s.performAll actions).2) := by
  induction actions generalizing s with
  | nil => rfl
  | cons a rest ih =>
      rw [performAll, performAll, Action.execute_forgetOrigins]
      show (let performed := (a.execute s).sequent.forgetOrigins.performAll rest
        (performed.1, _ :: performed.2)) = _
      rw [ih]
      rfl

/-! ## Antecedents and rules -/

namespace Antecedent

theorem aim_forgetOrigins (a : Antecedent) (s : Sequent) :
    a.aim s.forgetOrigins = (a.aim s).map Sequent.forgetOrigins := by
  rw [aim, aim]
  cases a.goal with
  | none => rfl
  | some goal => exact s.replaceGoal_forgetOrigins goal

theorem stage_forgetOrigins (a : Antecedent) (s : Sequent) :
    a.stage s.forgetOrigins = (a.stage s).map Sequent.forgetOrigins := by
  rw [stage, stage, Sequent.addIdents_forgetOrigins]
  cases s.addIdents a.idents with
  | none => rfl
  | some bound =>
      show (a.aim bound.forgetOrigins).bind _ = ((a.aim bound).bind _).map _
      rw [aim_forgetOrigins]
      cases a.aim bound with
      | none => rfl
      | some aimed =>
          show (aimed.forgetOrigins.addHyps _).bind _ = ((aimed.addHyps _).bind _).map _
          rw [Sequent.addHyps_forgetOrigins]
          cases aimed.addHyps a.hyps.toList with
          | none => rfl
          | some extended => exact congrArg some (extended.mark_forgetOrigins _ _)

theorem expand_forgetOrigins (a : Antecedent) (s : Sequent) :
    a.expand s.forgetOrigins =
      (a.expand s).map fun child => (child.1.forgetOrigins, child.2) := by
  rw [expand_eq_map, expand_eq_map, stage_forgetOrigins, Option.map_map, Option.map_map]
  cases a.stage s with
  | none => rfl
  | some staged => exact congrArg some (staged.performAll_forgetOrigins a.actions)

theorem expandAll_forgetOrigins (s : Sequent) (as : List Antecedent) :
    expandAll s.forgetOrigins as =
      (expandAll s as).map (List.map fun child => (child.1.forgetOrigins, child.2)) := by
  induction as with
  | nil => rfl
  | cons a rest ih =>
      rw [expandAll, expandAll, expand_forgetOrigins, ih]
      cases a.expand s with
      | none => rfl
      | some child =>
          cases expandAll s rest with
          | none => rfl
          | some children => rfl

end Antecedent

namespace Rule

/-- Whether a rule fits has nothing to do with origins. -/
theorem fits_forgetOrigins (r : Rule) (s : Sequent) : r.fits s.forgetOrigins = r.fits s := by
  rw [fits, fits, Sequent.hasAll_forgetOrigins]
  rfl

/-- A rule makes the same children of a sequent whose origins are
    forgotten, with their origins forgotten, and skips the same actions. -/
theorem expand_forgetOrigins (r : Rule) (s : Sequent) :
    r.expand s.forgetOrigins =
      (r.expand s).map fun expanded => (expanded.1.map Sequent.forgetOrigins, expanded.2) := by
  rw [expand, expand, fits_forgetOrigins, Antecedent.expandAll_forgetOrigins]
  split
  · cases Antecedent.expandAll s r.antecedents with
    | none => rfl
    | some children =>
        simp only [Option.map_some, List.map_map]
        rfl
  · rfl

/-- A rule that applies to a sequent applies to every sequent that is the
    same, skips the same actions there and makes the same children. -/
theorem expand_of_sameAs {r : Rule} {s t : Sequent} {kids : List Sequent}
    {skipped : SkippedActions} (h : s.sameAs t = true)
    (hexpand : r.expand s = some (kids, skipped)) :
    ∃ kids', r.expand t = some (kids', skipped) ∧
      List.Forall₂ (fun k k' => k.sameAs k' = true) kids kids' := by
  have himage := r.expand_forgetOrigins t
  rw [← Sequent.sameAs_iff.mp h, expand_forgetOrigins, hexpand] at himage
  obtain ⟨⟨kids', skipped'⟩, ht, heq⟩ := Option.map_eq_some_iff.mp himage.symm
  obtain ⟨hkids, rfl⟩ := Prod.mk.inj heq
  refine ⟨kids', ht, ?_⟩
  -- children with the same image are the same
  have hsame : List.Forall₂ (· = ·) (kids.map Sequent.forgetOrigins)
      (kids'.map Sequent.forgetOrigins) := by
    rw [List.forall₂_eq_eq_eq]
    exact hkids.symm
  rw [List.forall₂_map_left_iff, List.forall₂_map_right_iff] at hsame
  exact hsame.imp fun k k' hk => Sequent.sameAs_iff.mpr hk

end Rule

end SequentProver
