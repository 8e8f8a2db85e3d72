import SequentProver.Proofs.CertificateFold

/-! # Certificates on other sequents

    Down the tree on a sequent other than the recorded one.  A rule fits where
    the certificate of its node is met, and what its children released is met
    there too.  What an antecedent gave up it adds again.

    An inference may be skipped on one of the two sequents and take effect on
    the other.  That does no harm to hypotheses, but names can get lost: bound
    on the record and not on the replay, or the other way round.  Where this
    touches what the rest of the proof consults or introduces, the inference
    drifts; otherwise the child meets the certificate of its subtree. -/

namespace SequentProver

/-! ## Actions -/

namespace Action

variable {a : Action} {d : Dependencies} {env : TypeEnv} {s t : Sequent}

/-- Where its sources are hypotheses, what the action adds type-checks once
    its names are bound. -/
def Typed (a : Action) : Prop :=
  ∀ ⦃s : Sequent⦄, s.WellTyped → (∀ p ∈ a.sources, s.has p = true) →
    ∀ ⦃env : TypeEnv⦄, s.env.extend a.names = .ok env → ∀ p ∈ a.added, env.accepts p = true

/-- An action that could take effect is skipped only because everything it
    adds is there. -/
theorem has_of_skipped (ha : a.Typed) (hs : s.WellTyped)
    (hsources : ∀ p ∈ a.sources, s.has p = true) (henv : s.env.extend a.names = .ok env)
    (hskipped : (a.execute s).skipped = true) : ∀ p ∈ a.added, s.has p = true := by
  have hadded := ha hs hsources henv
  cases a with
  | mark m hyps => cases hskipped
  | infer sources idents inferred =>
      by_cases hall : s.hasAll inferred.toList = true
      · exact Sequent.hasAll_iff.mp hall
      -- the other reasons to skip are excluded: the names are fresh and the sources there
      · have hfree : (idents.any fun n => s.env.binds n.name) = false := by
          rw [List.any_eq_false]
          intro n hn
          rw [Bool.not_eq_true, TypeEnv.binds_eq_false]
          exact (TypeEnv.fresh_of_extend henv).2 n hn
        have hcond : (s.hasAll sources.toList && !(idents.any fun n => s.env.binds n.name) &&
            !s.hasAll inferred.toList) = true := by
          have hthere : s.hasAll sources.toList = true := Sequent.hasAll_iff.mpr hsources
          rw [hthere, hfree, Bool.eq_false_iff.mpr hall]
          rfl
        obtain ⟨t, ht⟩ := Sequent.exists_forwardInfer sources.toList henv hadded
        have htry : s.tryInfer sources idents inferred = some t := (if_pos hcond).trans ht
        rw [execute, htry] at hskipped
        cases hskipped
  | replace sources replacement toHide =>
      by_cases hall : s.hasAll replacement.toList = true
      · exact Sequent.hasAll_iff.mp hall
      -- a replacement binds no names, so only the types could stand in the way
      · have hthere : s.hasAll sources.toList = true := Sequent.hasAll_iff.mpr hsources
        obtain ⟨t, ht⟩ := Sequent.exists_forwardInfer sources.toList henv hadded
        have hinfer : s.forwardInfer sources.toList [] replacement.toList = some t := ht
        rw [execute, Sequent.performReplace] at hskipped
        simp only [hthere, hall, hinfer, Bool.not_true, Bool.false_eq_true, if_false] at hskipped

/-- The names of an inference got lost and matter: bound on the record but
    not on the replay while they are consulted, or bound on the replay but
    not on the record while they are introduced later.  The flags tell
    whether the action was skipped, on the record and on the replay. -/
def drifts (a : Action) (d : Dependencies) : Bool → Bool → Bool
  | false, true => a.names.any fun n => d.idents.toList.any fun used => used.name = n.name
  | true, false => a.names.any fun n => decide (n.name ∈ d.introduced)
  | _, _ => false

/-- If names get lost without drift, none of them is consulted. -/
theorem not_drifts_lost (h : a.drifts d false true = false) :
    ∀ x ∈ d.idents, ¬∃ n ∈ a.names, n.name = x.name := by
  rintro x hx ⟨n, hn, heq⟩
  refine List.any_eq_false.mp h n hn ?_
  exact List.any_eq_true.mpr ⟨x, hx, decide_eq_true heq.symm⟩

/-- If names are bound anew without drift, none of them is introduced later. -/
theorem not_drifts_taken (h : a.drifts d true false = false) :
    ∀ y ∈ d.introduced, ∀ n ∈ a.names, n.name ≠ y := by
  rintro y hy n hn rfl
  exact List.any_eq_false.mp h n hn (decide_eq_true hy)

/-- What an action released is covered: either the rest did not consult it,
    or its sources are there and its names are free. -/
theorem covered_of_release (h : (a.release env d).Covered [] [] s) :
    d.Covered [] [] s ∨ d.Covered a.names a.added.toList s ∧
      (∀ p ∈ a.sources, s.has p = true) ∧ ∀ n ∈ a.names, s.env.typeOf? n.name = none := by
  rw [release_eq, Dependencies.foldInference] at h
  split at h
  · obtain ⟨hintroduced, hfresh⟩ := h.of_introduce
    obtain ⟨hused, hsources⟩ := hintroduced.of_useHyps
    exact Or.inr ⟨hused.of_dropHyps, hsources, hfresh⟩
  · exact Or.inl h

/-- Down an action that does not drift: what was met after it on the record is
    met after it on the replay. -/
theorem metBy_execute {s' : Sequent} (ha : a.Typed) (hs' : s'.WellTyped)
    (hd : d.MetBy (a.execute s).sequent)
    (h : (if (a.execute s).skipped then d else a.release env d).MetBy s')
    (hdrifts : a.drifts d (a.execute s).skipped (a.execute s').skipped = false) :
    d.MetBy (a.execute s').sequent := by
  rcases a.execute_cases s with ⟨hskipped, -⟩ | ⟨hskipped, hfires⟩
  · rw [hskipped, if_pos rfl] at h
    rcases a.execute_cases s' with ⟨hskipped', hgrows⟩ | ⟨hskipped', hfires⟩
    · exact (Dependencies.metBy_of_grows hgrows).mp h
    · -- the names are bound now; the rest does not introduce them
      rw [hskipped, hskipped'] at hdrifts
      have hgrows := hfires.grows
      refine ⟨fun g hg => (h.goal g hg).trans hgrows.goal.symm, fun p hp => Or.inr ?_,
        fun x hx => Or.inr ?_, fun y hy => ?_⟩
      · exact (hgrows.has p).mpr (Or.inl (h.covered.has hp))
      · exact hgrows.env_extends _ _ (h.covered.typeOf? hx)
      · rw [TypeEnv.typeOf?_extend_of_ne hgrows.env (not_drifts_taken hdrifts y hy)]
        exact h.covered.introduced y hy
  · rw [hskipped, if_neg Bool.false_ne_true] at h
    have hgoal : ∀ g, d.goal = some g → g = s'.goal := fun g hg =>
      h.goal g ((goal_release a env d).trans hg)
    have hcovered := covered_of_release h.covered
    rcases a.execute_cases s' with ⟨hskipped', hgrows⟩ | ⟨hskipped', hfires'⟩
    · refine (Dependencies.metBy_of_grows hgrows).mp ⟨hgoal, ?_⟩
      rcases hcovered with hcovered | ⟨hcovered, hsources, hfresh⟩
      · exact hcovered
      · -- the names stay unbound; the rest does not consult them
        rw [hskipped, hskipped'] at hdrifts
        obtain ⟨env', henv'⟩ :=
          TypeEnv.exists_extend (TypeEnv.fresh_of_extend hfires.grows.env).1 hfresh
        have hthere := has_of_skipped ha hs' hsources henv' hskipped'
        refine ⟨fun p hp => Or.inr ?_, fun x hx => Or.inr ?_, hcovered.introduced⟩
        · exact (hcovered.hyps p hp).elim (hthere p) id
        · exact (hcovered.idents x hx).resolve_left (not_drifts_lost hdrifts x hx)
    · refine ⟨fun g hg => (hgoal g hg).trans hfires'.grows.goal.symm, ?_⟩
      have hbefore : d.Covered a.names a.added.toList s' := by
        rcases hcovered with hcovered | ⟨hcovered, -⟩
        · exact hcovered.weaken
        · exact hcovered
      exact .after hfires.grows.env hd.covered hfires'.grows.env
        (fun p => (hfires'.grows.has p).mpr) hbefore

/-- Whether one of several actions drifts.  The dependencies are those after
    all of them; each action is looked at with what the later ones left. -/
def driftsAmong (env : TypeEnv) (d : Dependencies) :
    List Action → List Bool → List Bool → Bool
  | a :: rest, was :: flags, now :: flags' =>
    a.drifts (releaseAll env rest flags d) was now || driftsAmong env d rest flags flags'
  | _, _, _ => false

/-- Down a list of actions. -/
theorem metBy_performAll {s' t' : Sequent} {actions : List Action} {flags flags' : List Bool}
    (hactions : ∀ a ∈ actions, a.Typed) (hs : s.WellTyped) (hs' : s'.WellTyped)
    (hrun : s.performAll actions = (t, flags)) (hrun' : s'.performAll actions = (t', flags'))
    (hd : d.MetBy t) (h : (releaseAll t.env actions flags d).MetBy s')
    (hdrifts : driftsAmong t.env d actions flags flags' = false) : d.MetBy t' := by
  -- both runs go through the actions together, each with its own flags
  induction actions generalizing s s' flags flags' with
  | nil =>
      cases hrun
      cases hrun'
      exact h
  | cons a rest ih =>
      rw [List.forall_mem_cons] at hactions
      rw [Sequent.performAll] at hrun hrun'
      cases hrun
      cases hrun'
      rw [driftsAmong, Bool.or_eq_false_iff] at hdrifts
      rw [releaseAll_cons] at h
      have hnext := (wellTyped_execute (a := a) hs).1
      have hnext' := (wellTyped_execute (a := a) hs').1
      have hlater : (releaseAll _ rest _ d).MetBy (a.execute s).sequent :=
        metBy_releaseAll hnext rfl hd
      exact ih hactions.2 hnext hnext' rfl rfl
        (metBy_execute hactions.1 hs' hlater h hdrifts.1) hdrifts.2

end Action

/-! ## Antecedents -/

namespace Antecedent

variable {a : Antecedent} {d : Dependencies} {s t : Sequent}

/-- Down again on another sequent: what the antecedent did not give up is met
    there, so once it is staged all is met. -/
theorem metBy_of_giveUp {s' t' : Sequent} (ht : a.Staged s t) (hd : d.MetBy t)
    (ht' : a.Staged s' t') (h : (a.giveUp d).MetBy s') : d.MetBy t' := by
  refine ⟨fun g hg => ?_, ?_⟩
  · cases hgoal : a.goal with
    | none =>
        have hkept : (a.giveUp d).goal = some g := by
          rw [goal_giveUp ht hd.goal, hgoal]
          exact hg
        rw [h.goal g hkept, ht'.goal, hgoal]
        rfl
    | some goal => rw [hd.goal g hg, ht.goal, ht'.goal, hgoal, Option.getD_some, Option.getD_some]
  · have hintro := (covered_giveUp.mp h.covered).of_introduce
    exact .after ht.env hd.covered ht'.env (fun p => (ht'.has p).mpr) hintro.1.of_dropHyps

/-- The names of an antecedent can be bound wherever what it released is met. -/
theorem exists_extend_of_release {s' : Sequent} {env : TypeEnv} {flags flags' : List Bool}
    (hs : s.WellTyped) (hexpand : a.expand s = some (t, flags))
    (h : (a.release env flags' d).MetBy s') : ∃ env', s'.env.extend a.idents = .ok env' := by
  obtain ⟨mid, hmid, -⟩ := expand_eq_some.mp hexpand
  have hnodup := (TypeEnv.fresh_of_extend (staged_of_stage hs hmid).env).1
  exact TypeEnv.exists_extend hnodup (covered_giveUp.mp h.covered).of_introduce.2

/-- Whether an action of the antecedent drifts. -/
def drifts (a : Antecedent) (env : TypeEnv) (d : Dependencies) (flags flags' : List Bool) : Bool :=
  Action.driftsAmong env d a.actions flags flags'

/-- Down an antecedent that expands on both sequents and does not drift. -/
theorem metBy_expand {s' t' : Sequent} {flags flags' : List Bool}
    (ha : ∀ act ∈ a.actions, act.Typed) (hs : s.WellTyped) (hs' : s'.WellTyped)
    (hexpand : a.expand s = some (t, flags)) (hexpand' : a.expand s' = some (t', flags'))
    (hd : d.MetBy t) (h : (a.release t.env flags d).MetBy s')
    (hdrifts : a.drifts t.env d flags flags' = false) : d.MetBy t' := by
  obtain ⟨mid, hmid, hall⟩ := expand_eq_some.mp hexpand
  obtain ⟨mid', hmid', hall'⟩ := expand_eq_some.mp hexpand'
  have hstaged := staged_of_stage hs hmid
  have hstaged' := staged_of_stage hs' hmid'
  have hmet := Action.metBy_releaseAll hstaged.wellTyped hall hd
  exact Action.metBy_performAll ha hstaged.wellTyped hstaged'.wellTyped hall hall' hd
    (metBy_of_giveUp hstaged hmet hstaged' h) hdrifts

end Antecedent

/-! ## Rules -/

namespace Rule

variable {r : Rule} {s t : Sequent} {released : List Dependencies}

/-- And back on another sequent: there the rule fits, and what the children
    released is met. -/
theorem metBy_of_collect {env : TypeEnv} (hfits : r.fits s = true)
    (hs : ∀ d ∈ released, d.MetBy s) (h : (r.collect released env).MetBy t) :
    r.fits t = true ∧ ∀ d ∈ released, d.MetBy t := by
  obtain ⟨hgoal, hhyps, hidents, hintroduced⟩ := collect_spec r released env
  constructor
  · refine fits_iff.mpr ⟨fun p hp => h.covered.has ((hhyps p).mpr (Or.inr hp)), fun g hg => ?_⟩
    refine h.goal g ?_
    rw [hgoal, hg]
    rfl
  · intro d hd
    refine ⟨fun g hg => ?_, h.covered.mono (fun p hp => ?_) (fun x hx => ?_) fun y hy => ?_⟩
    · -- the goals that count are all that of the recorded sequent
      have hsome : (r.goal <|> released.findSome? Dependencies.goal).isSome = true := by
        cases r.goal with
        | some g' => rfl
        | none =>
            show (released.findSome? Dependencies.goal).isSome = true
            rw [List.findSome?_isSome_iff]
            exact ⟨d, hd, by rw [hg]; rfl⟩
      obtain ⟨g', hg'⟩ := Option.isSome_iff_exists.mp hsome
      rw [(hs d hd).goal g hg, ← eq_goal_of_chosen hfits hs hg']
      exact h.goal g' (hgoal.trans hg')
    · exact (hhyps p).mpr (Or.inl ⟨d, hd, hp⟩)
    · exact (hidents x).mpr (Or.inl ⟨d, hd, hx⟩)
    · exact (hintroduced y).mpr ⟨d, hd, hy⟩

end Rule

end SequentProver
