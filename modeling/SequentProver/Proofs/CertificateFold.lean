import SequentProver.Proofs.Certificate

/-! # Certificates along a proof

    Dependencies fold through actions, antecedents and rules.  Upwards, what
    the children meet their parent meets.  Downwards, a sequent that meets
    the certificate of a node fits the rule there and meets what the children
    gave up; this is what a replay on another sequent starts from. -/

namespace SequentProver

/-! ## Actions -/

namespace Action

variable {a : Action} {d : Dependencies} {env : TypeEnv} {s t : Sequent}

/-- Every action is accounted for like an inference; a mark draws on nothing
    and adds nothing. -/
theorem release_eq (a : Action) (env : TypeEnv) (d : Dependencies) :
    a.release env d = d.foldInference a.sources a.names a.added env := by
  cases a with
  | mark m hyps =>
      rw [Dependencies.foldInference, if_neg]
      · rfl
      · rw [Dependencies.consults_eq_true]
        rintro (⟨p, -, hp⟩ | ⟨n, hn, -⟩)
        · exact List.not_mem_nil hp
        · exact nomatch hn
  | infer sources idents inferred => rfl
  | replace sources replacement toHide => rfl

/-- Before an action that took effect: it may be that nothing of the outcome
    was consulted, or the sources take its place. -/
theorem covered_release (hs : s.WellTyped) (hfires : a.Fires s t) (hext : t.env.Extends env)
    (hd : d.Covered [] [] t) : (a.release env d).Covered [] [] s := by
  have hgrows := hfires.grows
  have hbefore : d.Covered a.names a.added.toList s :=
    hd.before hgrows.env fun p => (hgrows.has p).mp
  rw [release_eq, Dependencies.foldInference]
  by_cases hconsults : d.consults a.added a.names = true
  · rw [if_pos hconsults]
    refine (hbefore.dropHyps.useHyps hs (hgrows.env_extends.trans hext) hfires.sources).introduce ?_
    exact (TypeEnv.fresh_of_extend hgrows.env).2
  · rw [if_neg hconsults]
    rw [Dependencies.consults_eq_true, not_or] at hconsults
    refine hbefore.strengthen (fun p hp hmem => hconsults.1 ⟨p, hp, hmem⟩) fun x hx n hn heq => ?_
    exact hconsults.2 ⟨n, hn, x, hx, heq.symm⟩

/-- Releasing an action does not touch the goal. -/
theorem goal_release (a : Action) (env : TypeEnv) (d : Dependencies) :
    (a.release env d).goal = d.goal := by
  rw [release_eq, Dependencies.foldInference]
  split
  · exact (Dependencies.useHyps_spec _ _ _).1
  · rfl

/-- Actions are released from the last to the first; a skipped one is passed
    over. -/
theorem releaseAll_cons (env : TypeEnv) (a : Action) (rest : List Action) (flag : Bool)
    (flags : List Bool) (d : Dependencies) :
    releaseAll env (a :: rest) (flag :: flags) d =
      if flag then releaseAll env rest flags d else a.release env (releaseAll env rest flags d) :=
  rfl

/-- Releasing actions does not touch the goal. -/
theorem goal_releaseAll (env : TypeEnv) (actions : List Action) (flags : List Bool)
    (d : Dependencies) : (releaseAll env actions flags d).goal = d.goal := by
  induction actions generalizing flags with
  | nil => rfl
  | cons a rest ih =>
      rw [releaseAll]
      split
      · exact ih flags.tail
      · exact (goal_release _ _ _).trans (ih flags.tail)

/-- Before a list of actions. -/
theorem covered_releaseAll {actions : List Action} {flags : List Bool} (hs : s.WellTyped)
    (h : s.performAll actions = (t, flags)) (hd : d.Covered [] [] t) :
    (releaseAll t.env actions flags d).Covered [] [] s := by
  induction actions generalizing s flags with
  | nil =>
      cases h
      exact hd
  | cons a rest ih =>
      rw [Sequent.performAll] at h
      cases h
      have hs' := (wellTyped_execute (a := a) hs).1
      have hlater := ih hs' rfl
      have hrest : (a.execute s).sequent.performAll rest = (_, _) := rfl
      obtain ⟨-, -, hext, -⟩ := Sequent.wellTyped_performAll hs' hrest
      rw [releaseAll_cons]
      -- a skipped action releases nothing, one that fired gives back what it added
      rcases a.execute_cases s with ⟨hskipped, hgrows⟩ | ⟨hskipped, hfires⟩
      · rw [hskipped, if_pos rfl]
        exact hlater.before hgrows.env fun p => (hgrows.has p).mp
      · rw [hskipped, if_neg Bool.false_ne_true]
        exact covered_release hs hfires hext hlater

/-- What is met after the actions is, once released, met before them. -/
theorem metBy_releaseAll {actions : List Action} {flags : List Bool} (hs : s.WellTyped)
    (h : s.performAll actions = (t, flags)) (hd : d.MetBy t) :
    (releaseAll t.env actions flags d).MetBy s := by
  obtain ⟨-, hgoal, -⟩ := Sequent.wellTyped_performAll hs h
  refine ⟨fun g hg => ?_, covered_releaseAll hs h hd.covered⟩
  rw [goal_releaseAll] at hg
  rw [hd.goal g hg, hgoal]

end Action

/-! ## Antecedents -/

namespace Antecedent

variable {a : Antecedent} {d : Dependencies} {s t : Sequent}

/-- What an antecedent gives up once its actions are accounted for: its
    goal, its hypotheses and its names. -/
def giveUp (a : Antecedent) (d : Dependencies) : Dependencies :=
  ((if a.goal.isSome && d.goal = a.goal then d.clearGoal else d).dropHyps a.hyps.toList).introduce
    a.idents

/-- An antecedent releases its actions and then what it added itself. -/
theorem release_eq (a : Antecedent) (env : TypeEnv) (flags : List Bool) (d : Dependencies) :
    a.release env flags d = a.giveUp (Action.releaseAll env a.actions flags d) := rfl

/-- The goal that is left: none if the antecedent set it. -/
theorem goal_giveUp (ht : a.Staged s t) (hd : ∀ g, d.goal = some g → g = t.goal) :
    (a.giveUp d).goal = if a.goal.isSome then none else d.goal := by
  cases hgoal : a.goal with
  | none =>
      rw [giveUp, hgoal]
      rfl
  | some goal =>
      have ht' : t.goal = goal := by
        rw [ht.goal, hgoal]
        rfl
      rw [giveUp, hgoal]
      cases hdgoal : d.goal with
      | none =>
          rw [if_neg (by simp)]
          exact hdgoal
      | some g =>
          have hg : g = goal := (hd g hdgoal).trans ht'
          rw [if_pos (by simp [hg])]
          rfl

/-- Whether the goal is given up does not matter for what is covered. -/
theorem covered_giveUp : (a.giveUp d).Covered [] [] s ↔
    ((d.dropHyps a.hyps.toList).introduce a.idents).Covered [] [] s := by
  rw [giveUp]
  split
  · exact ⟨fun h => ⟨h.hyps, h.idents, h.introduced⟩, fun h => ⟨h.hyps, h.idents, h.introduced⟩⟩
  · rfl

/-- Before an antecedent that was staged. -/
theorem metBy_giveUp (ht : a.Staged s t) (hd : d.MetBy t) : (a.giveUp d).MetBy s := by
  refine ⟨fun g hg => ?_, ?_⟩
  · rw [goal_giveUp ht hd.goal] at hg
    split at hg
    · exact nomatch hg
    · rename_i hnone
      rw [hd.goal g hg, ht.goal]
      cases hgoal : a.goal with
      | none => rfl
      | some goal => exact absurd (by rw [hgoal]; rfl) hnone
  · rw [covered_giveUp]
    refine (hd.covered.before ht.env fun p => (ht.has p).mp).dropHyps.introduce ?_
    exact (TypeEnv.fresh_of_extend ht.env).2

/-- Before an antecedent with its actions. -/
theorem metBy_release {flags : List Bool} (hs : s.WellTyped) (h : a.expand s = some (t, flags))
    (hd : d.MetBy t) : (a.release t.env flags d).MetBy s := by
  obtain ⟨mid, hmid, hall⟩ := expand_eq_some.mp h
  have hstaged := staged_of_stage hs hmid
  rw [release_eq]
  exact metBy_giveUp hstaged (Action.metBy_releaseAll hstaged.wellTyped hall hd)

end Antecedent

/-! ## Rules -/

namespace Dependencies

/-- Merging collects everything but goals. -/
theorem foldMerge_spec (l : List Dependencies) (d : Dependencies) :
    (l.foldl merge d).goal = d.goal ∧
      (∀ p, p ∈ (l.foldl merge d).hyps ↔ p ∈ d.hyps ∨ ∃ e ∈ l, p ∈ e.hyps) ∧
      (∀ x, x ∈ (l.foldl merge d).idents ↔ x ∈ d.idents ∨ ∃ e ∈ l, x ∈ e.idents) ∧
      ∀ y, y ∈ (l.foldl merge d).introduced ↔ y ∈ d.introduced ∨ ∃ e ∈ l, y ∈ e.introduced := by
  induction l generalizing d with
  | nil => simp
  | cons e rest ih =>
      obtain ⟨hgoal, hhyps, hidents, hintroduced⟩ := ih (d.merge e)
      refine ⟨hgoal, fun p => ?_, fun x => ?_, fun y => ?_⟩
      · rw [List.foldl_cons, hhyps, List.exists_mem_cons_iff, ← or_assoc]
        exact or_congr SortedSet.mem_union Iff.rfl
      · rw [List.foldl_cons, hidents, List.exists_mem_cons_iff, ← or_assoc]
        exact or_congr SortedSet.mem_union Iff.rfl
      · rw [List.foldl_cons, hintroduced, List.exists_mem_cons_iff, ← or_assoc]
        exact or_congr SortedSet.mem_union Iff.rfl

/-- Depend on a goal if there is one. -/
def aim (d : Dependencies) (goal : Option Pred) (env : TypeEnv) : Dependencies :=
  match goal with
  | some p => d.setGoal p env
  | none => d

/-- Aiming changes the goal, and adds the names of the new one. -/
theorem aim_spec {d : Dependencies} (hd : d.goal = none) (goal : Option Pred) (env : TypeEnv) :
    (d.aim goal env).goal = goal ∧ (d.aim goal env).hyps = d.hyps ∧
      (d.aim goal env).introduced = d.introduced ∧
      ∀ x, x ∈ (d.aim goal env).idents ↔
        x ∈ d.idents ∨ ∃ g, goal = some g ∧ x ∈ env.freeIdents g := by
  cases goal with
  | none =>
      refine ⟨hd, rfl, rfl, fun x => ⟨Or.inl, ?_⟩⟩
      rintro (hx | ⟨g, hg, -⟩)
      · exact hx
      · cases hg
  | some p =>
      refine ⟨rfl, rfl, rfl, fun x => SortedSet.mem_union.trans (or_congr Iff.rfl ?_)⟩
      constructor
      · exact fun hx => ⟨p, rfl, hx⟩
      · rintro ⟨g, ⟨⟩, hx⟩
        exact hx

end Dependencies

namespace Rule

variable {r : Rule} {s t : Sequent} {released : List Dependencies}

/-- The dependencies of a node from what its children released. -/
def collect (r : Rule) (released : List Dependencies) (env : TypeEnv) : Dependencies :=
  let merged := released.foldl Dependencies.merge {}
  let aimed := match r.goal <|> released.findSome? Dependencies.goal with
    | some p => merged.setGoal p env
    | none => merged
  (aimed.useHyps r.needed.toList env).useReasoner r.reasoner

/-- What a rule depends on: what is left of its children, and what it
    consulted. -/
theorem foldDependencies_eq (r : Rule) (children : List (Dependencies × TypeEnv)) (env : TypeEnv)
    (skipped : SkippedActions) :
    r.foldDependencies children env skipped =
      r.collect (releaseChildren r.antecedents skipped.rows children) env := rfl

/-- Merge, aim, then depend on what the rule needs. -/
theorem collect_eq (r : Rule) (released : List Dependencies) (env : TypeEnv) :
    r.collect released env =
      (((released.foldl Dependencies.merge {}).aim
        (r.goal <|> released.findSome? Dependencies.goal) env).useHyps
          r.needed.toList env).useReasoner r.reasoner := by
  rw [collect]
  cases r.goal <|> released.findSome? Dependencies.goal with
  | none => rfl
  | some p => rfl

/-- The members of the dependencies of a node. -/
theorem collect_spec (r : Rule) (released : List Dependencies) (env : TypeEnv) :
    (r.collect released env).goal = (r.goal <|> released.findSome? Dependencies.goal) ∧
      (∀ p, p ∈ (r.collect released env).hyps ↔ (∃ d ∈ released, p ∈ d.hyps) ∨ p ∈ r.needed) ∧
      (∀ x, x ∈ (r.collect released env).idents ↔ (∃ d ∈ released, x ∈ d.idents) ∨
        (∃ g, (r.collect released env).goal = some g ∧ x ∈ env.freeIdents g) ∨
        ∃ p ∈ r.needed, x ∈ env.freeIdents p) ∧
      ∀ y, y ∈ (r.collect released env).introduced ↔ ∃ d ∈ released, y ∈ d.introduced := by
  obtain ⟨hgoal, hhyps, hidents, hintroduced⟩ := Dependencies.foldMerge_spec released {}
  obtain ⟨agoal, ahyps, aintroduced, aidents⟩ := Dependencies.aim_spec hgoal
    (r.goal <|> released.findSome? Dependencies.goal) env
  obtain ⟨ugoal, uintroduced, uhyps, uidents⟩ := Dependencies.useHyps_spec
    ((released.foldl Dependencies.merge {}).aim
      (r.goal <|> released.findSome? Dependencies.goal) env) r.needed.toList env
  rw [collect_eq]
  -- merging starts from nothing, so what is in it some child released
  refine ⟨ugoal.trans agoal, fun p => ?_, fun x => ?_, fun y => ?_⟩
  · refine (uhyps p).trans (or_congr ?_ Iff.rfl)
    rw [ahyps, hhyps]
    exact or_iff_right List.not_mem_nil
  · refine (uidents x).trans ?_
    rw [aidents, hidents, or_assoc]
    refine or_congr (or_iff_right List.not_mem_nil) (or_congr ?_ Iff.rfl)
    refine exists_congr fun g => and_congr_left fun _ => ?_
    exact iff_of_eq (congrArg (· = some g) (ugoal.trans agoal).symm)
  · refine (iff_of_eq (congrArg (y ∈ ·) (uintroduced.trans aintroduced))).trans ?_
    rw [hintroduced]
    exact or_iff_right List.not_mem_nil

/-- The goal of a node is that of its sequent, whether the rule has it or a
    child released it. -/
theorem eq_goal_of_chosen (hfits : r.fits s = true) (h : ∀ d ∈ released, d.MetBy s) {g : Pred}
    (hg : (r.goal <|> released.findSome? Dependencies.goal) = some g) : g = s.goal := by
  cases hrule : r.goal with
  | some g' =>
      rw [hrule] at hg
      cases hg
      exact (fits_iff.mp hfits).2 g hrule
  | none =>
      rw [hrule] at hg
      obtain ⟨d, hd, hdg⟩ := List.exists_of_findSome?_eq_some hg
      exact (h d hd).goal g hdg

/-- A node meets its dependencies when it met what its children released. -/
theorem metBy_collect (hfits : r.fits s = true) (h : ∀ d ∈ released, d.MetBy s) :
    (r.collect released s.env).MetBy s := by
  obtain ⟨hneeded, -⟩ := fits_iff.mp hfits
  obtain ⟨hgoal, hhyps, hidents, hintroduced⟩ := collect_spec r released s.env
  refine ⟨fun g hg => ?_, fun p hp => Or.inr ?_, fun x hx => Or.inr ?_, fun y hy => ?_⟩
  · exact eq_goal_of_chosen hfits h (hgoal.symm.trans hg)
  · rcases (hhyps p).mp hp with ⟨d, hd, hp⟩ | hp
    · exact (h d hd).covered.has hp
    · exact hneeded p hp
  · rcases (hidents x).mp hx with ⟨d, hd, hx⟩ | ⟨g, -, hx⟩ | ⟨p, -, hx⟩
    · exact (h d hd).covered.typeOf? hx
    · exact (TypeEnv.mem_freeIdents.mp hx).2.2
    · exact (TypeEnv.mem_freeIdents.mp hx).2.2
  · obtain ⟨d, hd, hy⟩ := (hintroduced y).mp hy
    exact (h d hd).covered.introduced y hy

end Rule

end SequentProver
