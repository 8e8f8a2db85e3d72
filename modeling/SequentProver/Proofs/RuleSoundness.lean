import SequentProver.Proofs.BuiltinRules
import SequentProver.Proofs.Truth

/-! # The builtin rules are sound

    If a builtin rule above the level of a review expands on a well-typed
    sequent and the children are valid, then so is the sequent.  It does
    not matter for which sequent the rule was proposed: names that it binds
    are checked to be unbound when it expands, and an action that is skipped
    adds nothing that would have to be true.

    One lemma per form, each about the sequents alone; `Basic.sound` puts
    them together. -/

universe u

namespace SequentProver

namespace Sequent

variable {s t : Sequent}

/-! ## Rules for the goal -/

/-- To prove `p ⇒ q`, assume `p` and prove `q`. -/
theorem valid_of_imp {p q : Pred} (hgoal : s.goal = .binary .imp p q)
    (ht : Antecedent.Staged { goal := some q, hyps := SortedBy.ofList [p] } s t)
    (hvalid : t.Valid.{u}) : s.Valid.{u} := by
  intro I ρ hρ hhyps
  have henv : s.env = t.env := TypeEnv.extend_nil.mp ht.env
  rw [hgoal]
  intro hp
  have hq : t.goal.Holds ρ := by
    refine hvalid I ρ (henv ▸ hρ) fun h hh => ?_
    rcases (ht.has h).mp hh with hh | hmem
    · exact hhyps h hh
    · rw [SortedSet.mem_ofList, List.mem_singleton] at hmem
      exact hmem ▸ hp
  rw [ht.goal] at hq
  exact hq

/-- A goal that replaces the old one under the same hypotheses is true where
    they are. -/
theorem Valid.holds_goal {g : Pred} (ht : Antecedent.Staged { goal := some g } s t)
    (hvalid : t.Valid.{u}) {I : Interpretation.{u}} {ρ : Valuation I} (hρ : ρ.Respects s.env)
    (hhyps : ∀ p, s.has p = true → p.Holds ρ) : g.Holds ρ := by
  have henv : s.env = t.env := TypeEnv.extend_nil.mp ht.env
  have hg : t.goal.Holds ρ := by
    refine hvalid I ρ (henv ▸ hρ) fun h hh => ?_
    rcases (ht.has h).mp hh with hh | hmem
    · exact hhyps h hh
    · exact absurd hmem List.not_mem_nil
  rw [ht.goal] at hg
  exact hg

/-- To prove `p ∧ q`, prove both. -/
theorem valid_of_conj {p q : Pred} {t' : Sequent} (hgoal : s.goal = .binary .and p q)
    (ht : Antecedent.Staged { goal := some p } s t)
    (ht' : Antecedent.Staged { goal := some q } s t')
    (hvalid : t.Valid.{u}) (hvalid' : t'.Valid.{u}) : s.Valid.{u} := by
  intro I ρ hρ hhyps
  rw [hgoal]
  exact ⟨hvalid.holds_goal ht hρ hhyps, hvalid'.holds_goal ht' hρ hhyps⟩

/-- To prove `∀x·p`, bind `x`, which was unbound, and prove `p`. -/
theorem valid_of_all {ds : List TypedName} {body : Pred} (hs : s.WellTyped)
    (hgoal : s.goal = .quantified .universal ds body)
    (ht : Antecedent.Staged { goal := some body, idents := ds } s t)
    (hvalid : t.Valid.{u}) : s.Valid.{u} := by
  intro I ρ hρ hhyps
  rw [hgoal]
  intro σ hσ
  have hbody : t.goal.Holds σ := by
    refine hvalid I σ (hρ.assigns ht.env hσ) fun h hh => ?_
    rcases (ht.has h).mp hh with hh | hmem
    · -- no hypothesis mentions a name that was unbound
      have hfresh := (TypeEnv.fresh_of_extend ht.env).2
      exact (hσ.holds_iff hfresh (hs.hyps h hh)).mpr (hhyps h hh)
    · exact absurd hmem List.not_mem_nil
  rw [ht.goal] at hbody
  exact hbody

/-- Cut: prove `p`, then use it. -/
theorem valid_of_cut {p : Pred} {t' : Sequent}
    (ht : Antecedent.Staged { goal := some p } s t)
    (ht' : Antecedent.Staged { hyps := SortedBy.ofList [p] } s t')
    (hvalid : t.Valid.{u}) (hvalid' : t'.Valid.{u}) : s.Valid.{u} := by
  intro I ρ hρ hhyps
  have henv : s.env = t'.env := TypeEnv.extend_nil.mp ht'.env
  have hg : t'.goal.Holds ρ := by
    refine hvalid' I ρ (henv ▸ hρ) fun h hh => ?_
    rcases (ht'.has h).mp hh with hh | hmem
    · exact hhyps h hh
    · rw [SortedSet.mem_ofList, List.mem_singleton] at hmem
      rw [hmem]
      exact hvalid.holds_goal ht hρ hhyps
  rw [ht'.goal] at hg
  exact hg

/-! ## Rules for hypotheses -/

/-- Hypotheses that follow from the others may be added. -/
theorem valid_of_grows {ps : List Pred} (h : s.Grows [] ps t)
    (hps : ∀ (I : Interpretation.{u}) (ρ : Valuation I),
      (∀ p, s.has p = true → p.Holds ρ) → ∀ p ∈ ps, p.Holds ρ)
    (hvalid : t.Valid.{u}) : s.Valid.{u} := by
  intro I ρ hρ hhyps
  have henv : s.env = t.env := TypeEnv.extend_nil.mp h.env
  rw [← h.goal]
  refine hvalid I ρ (henv ▸ hρ) fun p hp => ?_
  rcases (h.has p).mp hp with hp | hmem
  · exact hhyps p hp
  · exact hps I ρ hhyps p hmem

/-- A skipped action leaves nothing to show. -/
theorem valid_of_unchanged (h : s.Grows [] [] t) (hvalid : t.Valid.{u}) : s.Valid.{u} := by
  refine valid_of_grows h ?_ hvalid
  intro I ρ _ p hp
  exact nomatch hp

/-- From `∃x·p`, bind `x`, which was unbound, and assume `p`. -/
theorem valid_of_exists {ds : List TypedName} {body : Pred} (hs : s.WellTyped)
    (hhas : s.has (.quantified .existential ds body) = true) (h : s.Grows ds [body] t)
    (hvalid : t.Valid.{u}) : s.Valid.{u} := by
  intro I ρ hρ hhyps
  obtain ⟨σ, hσ, hbody⟩ := hhyps _ hhas
  have hfresh := (TypeEnv.fresh_of_extend h.env).2
  rw [← hσ.holds_iff hfresh hs.goal, ← h.goal]
  refine hvalid I σ (hρ.assigns h.env hσ) fun p hp => ?_
  rcases (h.has p).mp hp with hp | hmem
  · exact (hσ.holds_iff hfresh (hs.hyps p hp)).mpr (hhyps p hp)
  · rw [List.mem_singleton] at hmem
    exact hmem ▸ hbody

/-- Both sides may take the place of `p ∧ q`, whether or not they are new. -/
theorem valid_of_replace {p q : Pred} {gone : SortedSet Pred}
    (hhas : s.has (.binary .and p q) = true)
    (hvalid : (Action.execute (.replace gone (SortedBy.ofList [p, q]) gone) s).sequent.Valid.{u}) :
    s.Valid.{u} := by
  rcases Action.execute_cases (.replace gone (SortedBy.ofList [p, q]) gone) s with
    ⟨-, hgrows⟩ | ⟨-, hfires⟩
  · exact valid_of_unchanged hgrows hvalid
  · refine valid_of_grows hfires.grows ?_ hvalid
    intro I ρ hhyps g hg
    obtain ⟨hp, hq⟩ := hhyps _ hhas
    rcases List.mem_pair.mp (SortedSet.mem_ofList.mp hg) with rfl | rfl
    · exact hp
    · exact hq

/-- The body of `∃x·p` may be inferred, whether or not the inference takes
    effect. -/
theorem valid_of_infer {ds : List TypedName} {body : Pred} {source : SortedSet Pred}
    (hs : s.WellTyped) (hhas : s.has (.quantified .existential ds body) = true)
    (hvalid : ((Action.execute (.infer source ds (SortedBy.ofList [body])) s).sequent.mark .hide
      source.toList).Valid.{u}) : s.Valid.{u} := by
  rcases Action.execute_cases (.infer source ds (SortedBy.ofList [body])) s with
    ⟨-, hgrows⟩ | ⟨-, hfires⟩
  · exact valid_of_unchanged (hgrows.mark _ _) hvalid
  · exact valid_of_exists hs hhas (hfires.grows.mark _ _) hvalid

end Sequent

/-! ## Expanding the forms -/

namespace Rule

variable {r : Rule} {s : Sequent} {kids : List Sequent} {skipped : SkippedActions}

/-- A rule with one antecedent has one child. -/
theorem expand_one {a : Antecedent} (ha : r.antecedents = [a])
    (h : r.expand s = some (kids, skipped)) :
    ∃ t flags, a.expand s = some (t, flags) ∧ kids = [t] := by
  obtain ⟨-, cs, hcs, rfl, -⟩ := expand_eq_some.mp h
  rw [ha, Antecedent.expandAll_eq_some] at hcs
  cases hcs with
  | cons hc hrest =>
      cases hrest
      exact ⟨_, _, hc, rfl⟩

/-- A rule with two antecedents has two children. -/
theorem expand_two {a b : Antecedent} (hab : r.antecedents = [a, b])
    (h : r.expand s = some (kids, skipped)) :
    ∃ t flags t' flags', a.expand s = some (t, flags) ∧ b.expand s = some (t', flags') ∧
      kids = [t, t'] := by
  obtain ⟨-, cs, hcs, rfl, -⟩ := expand_eq_some.mp h
  rw [hab, Antecedent.expandAll_eq_some] at hcs
  cases hcs with
  | cons ha hrest =>
      cases hrest with
      | cons hb hrest =>
          cases hrest
          exact ⟨_, _, _, _, ha, hb, rfl⟩

end Rule

/-- The child of an antecedent without actions is the staged sequent. -/
theorem Antecedent.staged_of_expand {a : Antecedent} {s t : Sequent} {flags : List Bool}
    (hs : s.WellTyped) (hactions : a.actions = []) (h : a.expand s = some (t, flags)) :
    a.Staged s t := by
  obtain ⟨mid, hmid, hall⟩ := expand_eq_some.mp h
  rw [hactions] at hall
  cases hall
  exact staged_of_stage hs hmid

/-- An antecedent that consists of actions runs them on a sequent that has
    not grown. -/
theorem Antecedent.performAll_of_expand {actions : List Action} {s t : Sequent}
    {flags : List Bool} (hs : s.WellTyped)
    (h : Antecedent.expand { actions := actions } s = some (t, flags)) :
    ∃ mid, s.Grows [] [] mid ∧ mid.WellTyped ∧ mid.performAll actions = (t, flags) := by
  obtain ⟨mid, hmid, hall⟩ := expand_eq_some.mp h
  have hstaged := staged_of_stage hs hmid
  exact ⟨mid, ⟨hstaged.env, hstaged.goal, hstaged.has⟩, hstaged.wellTyped, hall⟩

/-! ## Soundness -/

/-- Whatever it was proposed for, a builtin rule above the level of a review
    reduces the validity of a sequent to that of its children. -/
theorem Rule.Basic.sound {r : Rule} {s : Sequent} {kids : List Sequent}
    {skipped : SkippedActions} (hr : r.Basic) (hs : s.WellTyped)
    (hdischarged : r.confidence.isDischarged = true)
    (h : r.expand s = some (kids, skipped)) (hkids : ∀ k ∈ kids, k.Valid.{u}) :
    s.Valid.{u} := by
  obtain ⟨hneeded, hgoal⟩ := Rule.fits_iff.mp (Rule.expand_eq_some.mp h).1
  cases hr with
  | hyp g goal needed _ =>
      intro I ρ _ hhyps
      rw [← hgoal g goal]
      exact hhyps g (hneeded g needed)
  | trueGoal goal _ =>
      intro I ρ _ _
      rw [← hgoal _ goal]
      trivial
  | falseHyp needed _ =>
      intro I ρ _ hhyps
      exact (hhyps _ (hneeded _ needed)).elim
  | review confidence _ =>
      -- a review proves nothing, and its level is too low to be asked
      rw [confidence] at hdischarged
      exact absurd hdischarged (by decide)
  | impGoal p q goal antecedents =>
      obtain ⟨t, flags, ht, rfl⟩ := expand_one antecedents h
      exact Sequent.valid_of_imp (hgoal _ goal).symm
        (Antecedent.staged_of_expand hs rfl ht) (hkids t List.mem_cons_self)
  | conjGoal p q goal antecedents =>
      obtain ⟨t, flags, t', flags', ht, ht', rfl⟩ := expand_two antecedents h
      exact Sequent.valid_of_conj (hgoal _ goal).symm
        (Antecedent.staged_of_expand hs rfl ht) (Antecedent.staged_of_expand hs rfl ht')
        (hkids t List.mem_cons_self) (hkids t' (List.mem_cons_of_mem _ List.mem_cons_self))
  | allGoal ds body goal antecedents =>
      obtain ⟨t, flags, ht, rfl⟩ := expand_one antecedents h
      exact Sequent.valid_of_all hs (hgoal _ goal).symm
        (Antecedent.staged_of_expand hs rfl ht) (hkids t List.mem_cons_self)
  | cut p antecedents =>
      obtain ⟨t, flags, t', flags', ht, ht', rfl⟩ := expand_two antecedents h
      exact Sequent.valid_of_cut (Antecedent.staged_of_expand hs rfl ht)
        (Antecedent.staged_of_expand hs rfl ht') (hkids t List.mem_cons_self)
        (hkids t' (List.mem_cons_of_mem _ List.mem_cons_self))
  | conjHyp p q gone sources needed antecedents =>
      obtain ⟨t, flags, ht, rfl⟩ := expand_one antecedents h
      obtain ⟨mid, hmid, -, hall⟩ := Antecedent.performAll_of_expand hs ht
      cases hall
      have hconj : mid.has (.binary .and p q) = true := by
        refine (hmid.has _).mpr (Or.inl (hneeded _ ?_))
        rw [needed, sources, SortedSet.mem_ofList]
        exact List.mem_cons_self
      exact Sequent.valid_of_unchanged hmid
        (Sequent.valid_of_replace hconj (hkids _ List.mem_cons_self))
  | existsHyp ds body source sources needed antecedents =>
      obtain ⟨t, flags, ht, rfl⟩ := expand_one antecedents h
      obtain ⟨mid, hmid, hmidTyped, hall⟩ := Antecedent.performAll_of_expand hs ht
      cases hall
      have hex : mid.has (.quantified .existential ds body) = true := by
        refine (hmid.has _).mpr (Or.inl (hneeded _ ?_))
        rw [needed, sources, SortedSet.mem_ofList]
        exact List.mem_cons_self
      exact Sequent.valid_of_unchanged hmid
        (Sequent.valid_of_infer hmidTyped hex (hkids _ List.mem_cons_self))

end SequentProver
