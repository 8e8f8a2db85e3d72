import SequentProver.Proofs.Growth
import SequentProver.Reuse.Dependencies

/-! # What a certificate says about a sequent

    The dependencies of a proof are met by a sequent when the goal fits, the
    hypotheses are there, the names are bound as they were and no introduced
    name is bound.  They are collected from the leaves to the root, and at
    each step that an antecedent takes they are given up again as far as the
    antecedent added them.

    The middle term is `Covered`: a sequent covers dependencies up to names
    and predicates that are still to be added.  Going up the tree, what the
    child covers its parent covers up to the additions.  Going down on
    another sequent, coverage up to the additions becomes coverage once they
    are made, because on the recorded sequent the additions were made too. -/

namespace SequentProver

namespace Dependencies

variable {d e : Dependencies} {s t : Sequent} {ns : List TypedName} {ps : List Pred}

/-! ## Members -/

/-- Dropped hypotheses are not consulted any more. -/
theorem mem_hyps_dropHyps {p : Pred} : p ∈ (d.dropHyps ps).hyps ↔ p ∈ d.hyps ∧ p ∉ ps := by
  rw [dropHyps, SortedSet.mem_filter, Bool.not_eq_true', decide_eq_false_iff_not]

/-- Introduced names are not consulted any more. -/
theorem mem_idents_introduce {x : TypedName} :
    x ∈ (d.introduce ns).idents ↔ x ∈ d.idents ∧ ∀ n ∈ ns, n.name ≠ x.name := by
  rw [introduce, SortedSet.mem_filter, Bool.not_eq_true', List.any_eq_false]
  simp only [decide_eq_true_eq, ne_eq]

/-- They are listed as introduced instead. -/
theorem mem_introduced_introduce {y : String} :
    y ∈ (d.introduce ns).introduced ↔ y ∈ d.introduced ∨ ∃ n ∈ ns, n.name = y := by
  rw [introduce, SortedSet.mem_insertAll, List.mem_map]

/-- Using hypotheses adds them and their typed free names. -/
theorem useHyps_spec (d : Dependencies) (ps : List Pred) (env : TypeEnv) :
    (d.useHyps ps env).goal = d.goal ∧ (d.useHyps ps env).introduced = d.introduced ∧
      (∀ p, p ∈ (d.useHyps ps env).hyps ↔ p ∈ d.hyps ∨ p ∈ ps) ∧
      ∀ x, x ∈ (d.useHyps ps env).idents ↔
        x ∈ d.idents ∨ ∃ p ∈ ps, x ∈ env.freeIdents p := by
  induction ps generalizing d with
  | nil => simp [useHyps]
  | cons p rest ih =>
      obtain ⟨hgoal, hintroduced, hhyps, hidents⟩ := ih (d.useHyp env p)
      refine ⟨hgoal, hintroduced, fun q => ?_, fun x => ?_⟩
      · refine (hhyps q).trans ?_
        rw [useHyp, SortedSet.mem_insert, List.mem_cons]
        exact ⟨fun h => by tauto, fun h => by tauto⟩
      · refine (hidents x).trans ?_
        rw [useHyp, SortedSet.mem_union, List.exists_mem_cons_iff, or_assoc]

/-- Consulting means to share a hypothesis or a name. -/
theorem consults_eq_true {hyps : SortedSet Pred} :
    d.consults hyps ns = true ↔
      (∃ p ∈ d.hyps, p ∈ hyps) ∨ ∃ n ∈ ns, ∃ x ∈ d.idents, x.name = n.name := by
  rw [consults, Bool.or_eq_true, SortedSet.meets, List.any_eq_true, List.any_eq_true]
  simp only [List.any_eq_true, decide_eq_true_eq]
  rfl

/-! ## Coverage -/

/-- Hypotheses and names are there, up to the names `ns` and the predicates
    `ps`, and introduced names are unbound. -/
structure Covered (ns : List TypedName) (ps : List Pred) (d : Dependencies) (s : Sequent) :
    Prop where
  hyps : ∀ p ∈ d.hyps, p ∈ ps ∨ s.has p = true
  idents : ∀ x ∈ d.idents, (∃ n ∈ ns, n.name = x.name) ∨ s.env.typeOf? x.name = some x.ty
  introduced : ∀ y ∈ d.introduced, s.env.typeOf? y = none

/-- The dependencies are met: nothing is still to be added, and the goal
    fits. -/
structure MetBy (d : Dependencies) (s : Sequent) : Prop where
  goal : ∀ g, d.goal = some g → g = s.goal
  covered : d.Covered [] [] s

namespace Covered

/-- A covered hypothesis is one of the sequent. -/
theorem has (h : d.Covered [] [] s) {p : Pred} (hp : p ∈ d.hyps) : s.has p = true :=
  (h.hyps p hp).resolve_left List.not_mem_nil

/-- A covered name is bound with its type. -/
theorem typeOf? (h : d.Covered [] [] s) {x : TypedName} (hx : x ∈ d.idents) :
    s.env.typeOf? x.name = some x.ty :=
  (h.idents x hx).resolve_left fun ⟨_, hn, _⟩ => List.not_mem_nil hn

/-- Fewer dependencies are covered too. -/
theorem mono (h : e.Covered ns ps s) (hhyps : ∀ p ∈ d.hyps, p ∈ e.hyps)
    (hidents : ∀ x ∈ d.idents, x ∈ e.idents)
    (hintroduced : ∀ y ∈ d.introduced, y ∈ e.introduced) : d.Covered ns ps s :=
  ⟨fun p hp => h.hyps p (hhyps p hp), fun x hx => h.idents x (hidents x hx),
    fun y hy => h.introduced y (hintroduced y hy)⟩

/-- So they are up to more additions. -/
theorem weaken (h : d.Covered [] [] s) : d.Covered ns ps s :=
  ⟨fun _ hp => Or.inr (h.has hp), fun _ hx => Or.inr (h.typeOf? hx), h.introduced⟩

/-- What does not mention the additions is covered without them. -/
theorem strengthen (h : d.Covered ns ps s) (hps : ∀ p ∈ d.hyps, p ∉ ps)
    (hns : ∀ x ∈ d.idents, ∀ n ∈ ns, n.name ≠ x.name) : d.Covered [] [] s := by
  refine ⟨fun p hp => Or.inr ?_, fun x hx => Or.inr ?_, h.introduced⟩
  · exact (h.hyps p hp).resolve_left (hps p hp)
  · exact (h.idents x hx).resolve_left fun ⟨n, hn, heq⟩ => hns x hx n hn heq

/-! Three steps give up additions, and each can be taken back. -/

/-- What is covered up to some predicates is covered without them. -/
theorem dropHyps (h : d.Covered ns ps s) : (d.dropHyps ps).Covered ns [] s := by
  refine ⟨fun p hp => Or.inr ?_, h.idents, h.introduced⟩
  obtain ⟨hp, hnot⟩ := mem_hyps_dropHyps.mp hp
  exact (h.hyps p hp).resolve_left hnot

theorem of_dropHyps (h : (d.dropHyps ps).Covered ns [] s) : d.Covered ns ps s := by
  refine ⟨fun p hp => ?_, h.idents, h.introduced⟩
  by_cases hmem : p ∈ ps
  · exact Or.inl hmem
  · exact Or.inr ((h.hyps p (mem_hyps_dropHyps.mpr ⟨hp, hmem⟩)).resolve_left List.not_mem_nil)

/-- What is covered up to some names is covered with these introduced, if the
    sequent does not bind them. -/
theorem introduce (h : d.Covered ns [] s) (hfresh : ∀ n ∈ ns, s.env.typeOf? n.name = none) :
    (d.introduce ns).Covered [] [] s := by
  refine ⟨h.hyps, fun x hx => Or.inr ?_, fun y hy => ?_⟩
  · obtain ⟨hx, hnot⟩ := mem_idents_introduce.mp hx
    exact (h.idents x hx).resolve_left fun ⟨n, hn, heq⟩ => hnot n hn heq
  · rcases mem_introduced_introduce.mp hy with hy | ⟨n, hn, rfl⟩
    · exact h.introduced y hy
    · exact hfresh n hn

/-- And the other way round; then the sequent does not bind them. -/
theorem of_introduce (h : (d.introduce ns).Covered [] [] s) :
    d.Covered ns [] s ∧ ∀ n ∈ ns, s.env.typeOf? n.name = none := by
  refine ⟨⟨h.hyps, fun x hx => ?_, fun y hy => ?_⟩, fun n hn => ?_⟩
  · by_cases hmem : ∃ n ∈ ns, n.name = x.name
    · exact Or.inl hmem
    · refine Or.inr (h.typeOf? (mem_idents_introduce.mpr ⟨hx, fun n hn heq => hmem ?_⟩))
      exact ⟨n, hn, heq⟩
  · exact h.introduced y (mem_introduced_introduce.mpr (Or.inl hy))
  · exact h.introduced n.name (mem_introduced_introduce.mpr (Or.inr ⟨n, hn, rfl⟩))

/-- Hypotheses may be used that are there; the environment they are looked
    up in may bind more names than that of the sequent. -/
theorem useHyps {qs : List Pred} {env : TypeEnv} (h : d.Covered ns ps s) (hs : s.WellTyped)
    (hext : s.env.Extends env) (hqs : ∀ q ∈ qs, s.has q = true) :
    (d.useHyps qs env).Covered ns ps s := by
  obtain ⟨-, hintroduced, hhyps, hidents⟩ := useHyps_spec d qs env
  refine ⟨fun p hp => ?_, fun x hx => ?_, fun y hy => ?_⟩
  · rcases (hhyps p).mp hp with hp | hp
    · exact h.hyps p hp
    · exact Or.inr (hqs p hp)
  · rcases (hidents x).mp hx with hx | ⟨q, hq, hx⟩
    · exact h.idents x hx
    · -- a free name of a hypothesis is bound here already
      obtain ⟨hfree, -, hty⟩ := TypeEnv.mem_freeIdents.mp hx
      obtain ⟨ty, hty'⟩ := TypeEnv.typeOf?_of_accepts (hs.hyps q (hqs q hq)) hfree
      rw [hext _ _ hty'] at hty
      cases hty
      exact Or.inr hty'
  · exact h.introduced y (hintroduced ▸ hy)

/-- What is used in addition is asked of the sequent in addition. -/
theorem of_useHyps {qs : List Pred} {env : TypeEnv} (h : (d.useHyps qs env).Covered ns [] s) :
    d.Covered ns [] s ∧ ∀ q ∈ qs, s.has q = true := by
  obtain ⟨-, hintroduced, hhyps, hidents⟩ := useHyps_spec d qs env
  constructor
  · refine h.mono (fun p hp => (hhyps p).mpr (Or.inl hp)) (fun x hx => (hidents x).mpr (Or.inl hx))
      fun y hy => ?_
    rw [hintroduced]
    exact hy
  · intro q hq
    exact (h.hyps q ((hhyps q).mpr (Or.inr hq))).resolve_left List.not_mem_nil

/-- Before the additions: covered up to them. -/
theorem before (henv : s.env.extend ns = .ok t.env)
    (hhas : ∀ p, t.has p = true → s.has p = true ∨ p ∈ ps) (h : d.Covered [] [] t) :
    d.Covered ns ps s := by
  refine ⟨fun p hp => (hhas p (h.has hp)).symm, fun x hx => ?_, fun y hy => ?_⟩
  · by_cases hmem : ∃ n ∈ ns, n.name = x.name
    · exact Or.inl hmem
    · right
      rw [← TypeEnv.typeOf?_extend_of_ne henv fun n hn heq => hmem ⟨n, hn, heq⟩]
      exact h.typeOf? hx
  · exact (TypeEnv.extends_of_extend henv).typeOf?_eq_none (h.introduced y hy)

/-- After the additions, provided they covered the same dependencies on some
    other sequent: no introduced name is then among the additions. -/
theorem after {s' t' : Sequent} (henv' : s'.env.extend ns = .ok t'.env)
    (h' : d.Covered [] [] t') (henv : s.env.extend ns = .ok t.env)
    (hhas : ∀ p, s.has p = true ∨ p ∈ ps → t.has p = true) (h : d.Covered ns ps s) :
    d.Covered [] [] t := by
  refine ⟨fun p hp => Or.inr (hhas p (h.hyps p hp).symm), fun x hx => Or.inr ?_, fun y hy => ?_⟩
  · by_cases hmem : ∃ n ∈ ns, n.name = x.name
    · obtain ⟨n, hn, heq⟩ := hmem
      rw [← h'.typeOf? hx, ← heq, TypeEnv.typeOf?_extend_of_mem henv' hn,
        TypeEnv.typeOf?_extend_of_mem henv hn]
    · have hx' := (h.idents x hx).resolve_left hmem
      exact TypeEnv.extends_of_extend henv _ _ hx'
  · rw [TypeEnv.typeOf?_extend_of_ne henv fun n hn heq => ?_]
    · exact h.introduced y hy
    · have hbound := TypeEnv.typeOf?_extend_of_mem henv' hn
      rw [heq, h'.introduced y hy] at hbound
      exact nomatch hbound

end Covered

/-! ## The certificate in words -/

/-- The check on a certificate decides whether the sequent meets it. -/
theorem reusableOn_iff : d.reusableOn s = true ↔ d.MetBy s := by
  rw [reusableOn, Bool.and_eq_true, Bool.and_eq_true, Bool.and_eq_true, Sequent.hasAll_iff,
    List.all_eq_true, Bool.not_eq_true', List.any_eq_false, Bool.or_eq_true]
  constructor
  · rintro ⟨⟨⟨hgoal, hhyps⟩, hidents⟩, hintroduced⟩
    -- a demand without a goal is met by any goal
    refine ⟨fun g hg => ?_, fun p hp => Or.inr (hhyps p hp), fun x hx => Or.inr ?_, fun y hy => ?_⟩
    · rcases hgoal with h | h
      · rw [hg] at h
        exact nomatch h
      · rw [hg] at h
        exact Option.some.inj (of_decide_eq_true h)
    · exact TypeEnv.bindsAs_eq_true.mp (hidents x hx)
    · exact TypeEnv.binds_eq_false.mp (Bool.eq_false_iff.mpr (hintroduced y hy))
  · intro h
    refine ⟨⟨⟨?_, fun p hp => h.covered.has hp⟩, fun x hx => ?_⟩, fun y hy => ?_⟩
    · cases hg : d.goal with
      | none => exact Or.inl rfl
      | some g => exact Or.inr (decide_eq_true (congrArg some (h.goal g hg)))
    · exact TypeEnv.bindsAs_eq_true.mpr (h.covered.typeOf? hx)
    · exact Bool.eq_false_iff.mp (TypeEnv.binds_eq_false.mpr (h.covered.introduced y hy))

/-- What is met depends on the goal, the environment and the hypotheses only. -/
theorem MetBy.congr (h : d.MetBy s) (hgoal : s.goal = t.goal) (henv : s.env = t.env)
    (hhas : ∀ p, s.has p = true → t.has p = true) : d.MetBy t := by
  refine ⟨fun g hg => (h.goal g hg).trans hgoal, fun p hp => Or.inr (hhas p (h.covered.has hp)),
    fun x hx => Or.inr ?_, fun y hy => ?_⟩
  · rw [← henv]
    exact h.covered.typeOf? hx
  · rw [← henv]
    exact h.covered.introduced y hy

/-- Sequents that are the same meet the same dependencies. -/
theorem MetBy.of_sameAs (hsame : s.sameAs t = true) (h : d.MetBy s) : d.MetBy t := by
  obtain ⟨hgoal, henv, hhas⟩ := Sequent.sameAs_spec hsame
  exact h.congr hgoal henv fun p hp => hhas p ▸ hp

/-- So do sequents that differ in standings. -/
theorem metBy_of_grows (hgrows : s.Grows [] [] t) : d.MetBy s ↔ d.MetBy t := by
  have henv : s.env = t.env := TypeEnv.extend_nil.mp hgrows.env
  have hhas : ∀ p, t.has p = true ↔ s.has p = true := fun p =>
    (hgrows.has p).trans (or_iff_left List.not_mem_nil)
  constructor
  · exact fun h => h.congr hgrows.goal.symm henv fun p => (hhas p).mpr
  · exact fun h => h.congr hgrows.goal henv.symm fun p => (hhas p).mp

end Dependencies

end SequentProver
