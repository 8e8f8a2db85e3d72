import SequentProver.Proofs.Growth

/-! # What holds of every sequent

    Only building a sequent checks it.  Every later change takes a sequent
    that is in order and checks at most what it adds: names are bound under
    hypotheses that are there already, a goal that stays is not looked at
    again, and a replacement selects and hides at once.  Still, whatever the
    changes, goal and hypotheses type-check, a hypothesis is never hidden and
    selected, and never given and derived.

    Route:
    1. the lists of a sequent, seen through its entries;
    2. what building checks;
    3. `Change`, one change of any kind, and what it keeps;
    4. `Obtained`, any number of changes, and `Coherent`. -/

namespace SequentProver

namespace Sequent

variable {s t : Sequent} {p : Pred}

/-! ## Lists of hypotheses -/

theorem mem_ofOrigin {origin : Origin} :
    p ∈ s.ofOrigin origin ↔ ∃ h ∈ s.hyps.toList, h.origin = origin ∧ h.pred = p := by
  simp only [ofOrigin, List.mem_map, List.mem_filter, decide_eq_true_eq, and_assoc]

theorem mem_ofStanding {standing : Standing} :
    p ∈ s.ofStanding standing ↔ ∃ h ∈ s.hyps.toList, h.standing = standing ∧ h.pred = p := by
  simp only [ofStanding, List.mem_map, List.mem_filter, decide_eq_true_eq, and_assoc]

/-- Every entry is given or derived. -/
theorem mem_hypotheses : p ∈ s.hypotheses ↔ s.has p = true := by
  rw [hypotheses, List.mem_append, mem_ofOrigin, mem_ofOrigin, has, SortedBy.hasKey_iff]
  constructor
  · rintro (⟨h, hmem, -, hp⟩ | ⟨h, hmem, -, hp⟩) <;> exact ⟨h, hmem, hp⟩
  · rintro ⟨h, hmem, hp⟩
    cases horigin : h.origin with
    | given => exact Or.inl ⟨h, hmem, horigin, hp⟩
    | derived => exact Or.inr ⟨h, hmem, horigin, hp⟩

/-- Whatever stands in some way is a hypothesis. -/
theorem ofStanding_subset (s : Sequent) (standing : Standing) :
    s.ofStanding standing ⊆ s.hypotheses := by
  intro p hp
  obtain ⟨h, hmem, -, hpred⟩ := mem_ofStanding.mp hp
  exact mem_hypotheses.mpr (SortedBy.hasKey_iff.mpr ⟨h, hmem, hpred⟩)

/-- A predicate has one entry, so it stands in one way. -/
theorem disjoint_ofStanding {a b : Standing} (hne : a ≠ b) :
    List.Disjoint (s.ofStanding a) (s.ofStanding b) := by
  intro p ha hb
  obtain ⟨h, hmem, rfl, hpred⟩ := mem_ofStanding.mp ha
  obtain ⟨h', hmem', rfl, hpred'⟩ := mem_ofStanding.mp hb
  exact hne (congrArg _ (SortedBy.eq_of_key hmem hmem' (hpred.trans hpred'.symm)))

/-- It also has one origin. -/
theorem disjoint_ofOrigin {a b : Origin} (hne : a ≠ b) :
    List.Disjoint (s.ofOrigin a) (s.ofOrigin b) := by
  intro p ha hb
  obtain ⟨h, hmem, rfl, hpred⟩ := mem_ofOrigin.mp ha
  obtain ⟨h', hmem', rfl, hpred'⟩ := mem_ofOrigin.mp hb
  exact hne (congrArg _ (SortedBy.eq_of_key hmem hmem' (hpred.trans hpred'.symm)))

/-! ## Building -/

/-- A check that passes has accepted every predicate. -/
theorem checkHypotheses_eq_ok {env : TypeEnv} {ps : List Pred}
    (h : checkHypotheses env ps = .ok ()) : ∀ p ∈ ps, env.accepts p = true := by
  induction ps with
  | nil =>
      intro p hp
      exact nomatch hp
  | cons q rest ih =>
      rw [checkHypotheses] at h
      cases hq : env.checkClosed q with
      | error e =>
          rw [hq] at h
          exact nomatch h
      | ok u =>
          rw [hq] at h
          intro p hp
          rcases List.mem_cons.mp hp with rfl | hp
          · exact TypeEnv.accepts_iff.mpr hq
          · exact ih h p hp

/-- A sequent that was built is well typed. -/
theorem wellTyped_build {env : TypeEnv} {given derived hidden selected : List Pred} {goal : Pred}
    (h : build env given derived hidden selected goal = .ok s) : s.WellTyped := by
  simp only [build] at h
  split at h
  · cases h
  · rename_i hgoal
    split at h
    · cases h
    · rename_i hhyps
      split at h
      · cases h
      · split at h
        · cases h
        · cases h
          refine ⟨TypeEnv.accepts_iff.mpr hgoal, ?_⟩
          intro p hp
          -- an entry is one of the predicates that were checked
          refine checkHypotheses_eq_ok hhyps p ?_
          rw [has, SortedBy.ofList, SortedBy.hasKey_insertAll] at hp
          obtain ⟨entry, hentry, rfl⟩ := hp.resolve_left Bool.false_ne_true
          rw [List.mem_append, List.mem_map, List.mem_map] at hentry
          rw [List.mem_append]
          rcases hentry with ⟨q, hq, rfl⟩ | ⟨q, hq, rfl⟩
          · exact Or.inl hq
          · exact Or.inr hq

/-! ## Changes -/

/-- One change: a direct one, an action of any kind, or the step to a child
    by an antecedent or a rule. -/
inductive Change : Sequent → Sequent → Prop
  | addIdents {s t : Sequent} (idents : List TypedName) (h : s.addIdents idents = some t) :
      Change s t
  | replaceGoal {s t : Sequent} (goal : Pred) (h : s.replaceGoal goal = some t) : Change s t
  | addHyps {s t : Sequent} (ps : List Pred) (h : s.addHyps ps = some t) : Change s t
  | mark (s : Sequent) (m : Mark) (ps : List Pred) : Change s (s.mark m ps)
  | execute (s : Sequent) (a : Action) : Change s (a.execute s).sequent
  | antecedent {s t : Sequent} (a : Antecedent) {flags : List Bool}
      (h : a.expand s = some (t, flags)) : Change s t
  | rule {s t : Sequent} (r : Rule) {kids : List Sequent} {skipped : SkippedActions}
      (h : r.expand s = some (kids, skipped)) (ht : t ∈ kids) : Change s t

/-- A change keeps a sequent well typed. -/
theorem Change.wellTyped (h : s.Change t) (hs : s.WellTyped) : t.WellTyped := by
  cases h with
  | addIdents idents h => exact (grows_addIdents h).wellTyped hs fun p hp => nomatch hp
  | replaceGoal goal h =>
      obtain ⟨hgoal, rfl⟩ := (replaceGoal_eq_some hs).mp h
      exact ⟨hgoal, hs.hyps⟩
  | addHyps ps h =>
      obtain ⟨hps, rfl⟩ := addHyps_eq_some.mp h
      have hgrows := (grows_mark s .show ps).trans (grows_derive _ .plain ps)
      exact hgrows.wellTyped hs fun p hp => Or.inr (hps p hp)
  | mark m ps => exact (grows_mark s m ps).wellTyped hs fun p hp => nomatch hp
  | execute a => exact (Action.wellTyped_execute hs).1
  | antecedent a h => exact Antecedent.wellTyped_expand hs h
  | rule r h ht => exact Rule.wellTyped_expand hs h t ht

/-- Built, and then changed any number of times. -/
inductive Obtained : Sequent → Prop
  | build {env : TypeEnv} {given derived hidden selected : List Pred} {goal : Pred} {s : Sequent}
      (h : Sequent.build env given derived hidden selected goal = .ok s) : Obtained s
  | ofHypotheses {env : TypeEnv} {hyps : List Pred} {goal : Pred} {s : Sequent}
      (h : Sequent.ofHypotheses env hyps goal = .ok s) : Obtained s
  | change {s t : Sequent} (h : Obtained s) (hchange : s.Change t) : Obtained t

/-- A sequent that was obtained by the operations is well typed. -/
theorem Obtained.wellTyped (h : s.Obtained) : s.WellTyped := by
  induction h with
  | build h => exact wellTyped_build h
  | ofHypotheses h => exact wellTyped_build h
  | change _ hchange ih => exact hchange.wellTyped ih

/-- A sequent that is in order. -/
structure Coherent (s : Sequent) : Prop where
  goal : s.env.checkClosed s.goal = .ok ()
  hyps : ∀ p ∈ s.hypotheses, s.env.checkClosed p = .ok ()
  hidden : s.ofStanding .hidden ⊆ s.hypotheses
  selected : s.ofStanding .selected ⊆ s.hypotheses
  hidden_or_selected : List.Disjoint (s.ofStanding .hidden) (s.ofStanding .selected)
  given_or_derived : List.Disjoint (s.ofOrigin .given) (s.ofOrigin .derived)

/-- Whatever the changes, a sequent that was built is in order. -/
theorem obtained_coherent (h : s.Obtained) : s.Coherent where
  goal := TypeEnv.accepts_iff.mp h.wellTyped.goal
  hyps := by
    intro p hp
    exact TypeEnv.accepts_iff.mp (h.wellTyped.hyps p (mem_hypotheses.mp hp))
  hidden := s.ofStanding_subset .hidden
  selected := s.ofStanding_subset .selected
  hidden_or_selected := disjoint_ofStanding (by decide)
  given_or_derived := disjoint_ofOrigin (by decide)

/-- A name is bound under the hypotheses, and then a hypothesis replaces
    itself while it is to be hidden. -/
theorem replaced_coherent :
    ∃ s t : Sequent, build .empty [.top] [.top, .bottom] [.bottom] [.top] .bottom = .ok s ∧
      s.addIdents [⟨"x", .integer⟩] = some t ∧
      let u := ((Action.replace (SortedBy.ofList [.top, .bottom])
        (SortedBy.ofList [.bottom, .not .top]) (SortedBy.ofList [.bottom])).execute t).sequent
      u.ofStanding .hidden = [.bottom] ∧ u.ofStanding .selected = [.top, .not .top] ∧
        u.ofOrigin .given = [.top] ∧ u.Coherent := by
  let hyps : SortedBy Hypothesis.pred :=
    SortedBy.ofList [⟨.top, .given, .selected⟩, ⟨.bottom, .derived, .hidden⟩]
  have hbuild : build .empty [.top] [.top, .bottom] [.bottom] [.top] .bottom =
      .ok ⟨.empty, hyps, .bottom⟩ := rfl
  have hbind : addIdents ⟨.empty, hyps, .bottom⟩ [⟨"x", .integer⟩] =
      some ⟨⟨SortedBy.ofList [⟨"x", .integer⟩]⟩, hyps, .bottom⟩ := rfl
  exact ⟨_, _, hbuild, hbind, by decide +kernel, by decide +kernel, by decide +kernel,
    obtained_coherent (((Obtained.build hbuild).change (.addIdents _ hbind)).change (.execute _ _))⟩

end Sequent

end SequentProver
