import SequentProver.Proofs.CertificateDescent
import SequentProver.Proofs.Following
import SequentProver.Proofs.KernelSoundness
import SequentProver.Proofs.OwnCertificate

/-! # How far a certificate carries a replay

    A sequent that meets the dependencies of a proof need not take the proof.
    The dependencies leave out two things that the rules of the builtin
    reasoners look at:

    * the names in the formula of a cut, once neither branch mentions them;
    * whether the inference of an existential hypothesis takes effect, which
      decides about its names.

    `survives` checks these two along the replay and nothing else, and it
    decides whether the replay closes. -/

namespace SequentProver

/-! ## The rules of the builtin reasoners on other sequents -/

namespace Rule.Basic

variable {r : Rule} {a : Antecedent} {k : Sequent}

/-- What a builtin rule draws from a hypothesis type-checks with it. -/
theorem typed (h : r.Basic) (ha : a ∈ r.antecedents) : ∀ act ∈ a.actions, act.Typed := by
  intro act hact
  cases h with
  | hyp _ _ _ has | trueGoal _ has | falseHyp _ has | review _ has =>
      rw [has] at ha
      exact nomatch ha
  | impGoal p q _ has | allGoal ds body _ has =>
      rw [has, List.mem_singleton] at ha
      subst ha
      exact nomatch hact
  | conjGoal p q _ has | cut p has =>
      rw [has] at ha
      rcases List.mem_pair.mp ha with rfl | rfl
      · exact nomatch hact
      · exact nomatch hact
  -- the parts of an accepted conjunction are accepted
  | conjHyp p q gone hgone _ has =>
      rw [has, List.mem_singleton] at ha
      subst ha
      cases List.mem_singleton.mp hact
      intro s hs hsources env henv x hx
      cases TypeEnv.extend_nil.mp henv
      have hsource := hs.hyps _ (hsources (.binary .and p q)
        (hgone ▸ SortedSet.mem_ofList.mpr List.mem_cons_self))
      obtain ⟨hp, hq⟩ := TypeEnv.accepts_binary.mp hsource
      rcases List.mem_pair.mp (SortedSet.mem_ofList.mp hx) with rfl | rfl
      · exact hp
      · exact hq
  -- the body is accepted once the names of the quantifier are bound
  | existsHyp ds body source hsource _ has =>
      rw [has, List.mem_singleton] at ha
      subst ha
      rcases List.mem_pair.mp hact with rfl | rfl
      · intro s hs hsources env henv x hx
        cases List.mem_singleton.mp (SortedSet.mem_ofList.mp hx)
        exact TypeEnv.accepts_body (hs.hyps _ (hsources (.quantified .existential ds body)
          (hsource ▸ SortedSet.mem_ofList.mpr List.mem_cons_self))) henv
      · exact fun s _ _ env _ x hx => absurd hx List.not_mem_nil

/-- Where a builtin rule fits and the hypotheses it adds type-check, its
    antecedents are accepted once their names are bound. -/
theorem accepted (h : r.Basic) (hk : k.WellTyped) (hfits : r.fits k = true)
    (hadds : ∀ a ∈ r.antecedents, ∀ p ∈ a.hyps, k.env.accepts p = true)
    (ha : a ∈ r.antecedents) {env : TypeEnv} (henv : k.env.extend a.idents = .ok env) :
    a.Accepted env := by
  have hgoal : ∀ g, r.goal = some g → k.env.accepts g = true := fun g hg =>
    (fits_iff.mp hfits).2 g hg ▸ hk.goal
  -- without new names the environment is that of the sequent
  have hhyps : a.idents = [] → ∀ p ∈ a.hyps, env.accepts p = true := by
    intro hidents p hp
    rw [hidents, TypeEnv.extend_nil] at henv
    exact henv ▸ hadds a ha p hp
  cases h with
  | hyp _ _ _ has | trueGoal _ has | falseHyp _ has | review _ has =>
      rw [has] at ha
      exact nomatch ha
  | impGoal p q hg has =>
      rw [has, List.mem_singleton] at ha
      subst ha
      refine ⟨?_, hhyps rfl⟩
      rintro g ⟨⟩
      cases TypeEnv.extend_nil.mp henv
      exact (TypeEnv.accepts_binary.mp (hgoal _ hg)).2
  | conjGoal p q hg has =>
      rw [has] at ha
      obtain ⟨hp, hq⟩ := TypeEnv.accepts_binary.mp (hgoal _ hg)
      rcases List.mem_pair.mp ha with rfl | rfl
      all_goals
        refine ⟨?_, hhyps rfl⟩
        rintro g ⟨⟩
        cases TypeEnv.extend_nil.mp henv
        assumption
  | allGoal ds body hg has =>
      rw [has, List.mem_singleton] at ha
      subst ha
      refine ⟨?_, fun p hp => absurd hp List.not_mem_nil⟩
      rintro g ⟨⟩
      exact TypeEnv.accepts_body (hgoal _ hg) henv
  -- the antecedent that aims at the cut adds no hypothesis, the other one does
  | cut p has =>
      have hcut : k.env.accepts p = true := by
        refine hadds { hyps := SortedBy.ofList [p] } ?_ p
          (SortedSet.mem_ofList.mpr List.mem_cons_self)
        rw [has]
        exact List.mem_cons_of_mem _ List.mem_cons_self
      rw [has] at ha
      rcases List.mem_pair.mp ha with rfl | rfl
      · refine ⟨?_, hhyps rfl⟩
        rintro g ⟨⟩
        cases TypeEnv.extend_nil.mp henv
        exact hcut
      · exact ⟨fun g hg => (nomatch hg), hhyps rfl⟩
  | conjHyp p q gone _ _ has | existsHyp ds body source _ _ has =>
      rw [has, List.mem_singleton] at ha
      subst ha
      exact ⟨fun g hg => (nomatch hg), hhyps rfl⟩

/-- Where a builtin rule expands the hypotheses it adds type-check. -/
theorem accepts_of_expand (h : r.Basic) (hk : k.WellTyped) (ha : a ∈ r.antecedents)
    {kid : Sequent × List Bool} (hkid : a.expand k = some kid) :
    ∀ p ∈ a.hyps, k.env.accepts p = true := by
  intro p hp
  obtain ⟨mid, hmid, -⟩ := Antecedent.expand_eq_some.mp hkid
  have hstaged := Antecedent.staged_of_stage hk hmid
  have haccepts := hstaged.accepted.2 p hp
  have henv := hstaged.env
  -- only a goal that is universal binds names, and then no hypothesis is added
  cases h with
  | hyp _ _ _ has | trueGoal _ has | falseHyp _ has | review _ has =>
      rw [has] at ha
      exact nomatch ha
  | impGoal _ _ _ has | conjHyp _ _ _ _ _ has | existsHyp _ _ _ _ _ has =>
      rw [has, List.mem_singleton] at ha
      subst ha
      rw [TypeEnv.extend_nil.mp henv]
      exact haccepts
  | conjGoal _ _ _ has | cut _ has =>
      rw [has] at ha
      rcases List.mem_pair.mp ha with rfl | rfl
      all_goals
        rw [TypeEnv.extend_nil.mp henv]
        exact haccepts
  | allGoal _ _ _ has =>
      rw [has, List.mem_singleton] at ha
      subst ha
      exact absurd hp List.not_mem_nil

end Rule.Basic

/-! ## Surviving -/

namespace ProofTree

mutual

/-- Whether the proof survives a replay on a sequent that meets its
    dependencies.  The hypotheses that a rule adds have to type-check.  Where
    an antecedent drifts, the dependencies say nothing about the subproof any
    more, and it has to be followed step by step. -/
def survives : ProofTree → Sequent → Bool
  | .openNode _, _ => true
  | .applied _ rule skipped children, s =>
    (rule.antecedents.all fun a => a.hyps.toList.all s.env.accepts) &&
      survivesAmong rule.antecedents skipped.rows children
        ((Antecedent.expandAll s rule.antecedents).getD [])

/-- Whether subproofs survive, antecedent by antecedent.  A row of flags says
    what the antecedent skipped then and what it skips now. -/
def survivesAmong : List Antecedent → List (List Bool) → List ProofTree →
    List (Sequent × List Bool) → Bool
  | a :: as, was :: rows, t :: ts, (s, now) :: kids =>
    (if a.drifts t.sequent.env t.dependencies was now then follows t s else survives t s) &&
      survivesAmong as rows ts kids
  | _, _, _, _ => true

end

variable {t : ProofTree} {s k : Sequent}

/-- Below a node whose antecedents are accepted: the rule expands, and a
    subproof that does not drift meets its own dependencies again. -/
theorem Recorded.survives {as : List Antecedent} {children : List ProofTree}
    {rows : List (List Bool)} (h : Recorded s as children rows) (hs : s.WellTyped)
    (hk : k.WellTyped) (htyped : ∀ a ∈ as, ∀ act ∈ a.actions, act.Typed)
    (haccepted : ∀ a ∈ as, ∀ {env : TypeEnv}, k.env.extend a.idents = .ok env → a.Accepted env)
    (hchildren : ∀ c ∈ children, c.dependencies.MetBy c.sequent)
    (hreleased : ∀ d ∈ Rule.releaseChildren as rows
      (children.map fun t => (t.dependencies, t.sequent.env)), d.MetBy k)
    (ih : ∀ c ∈ children, ∀ k : Sequent, k.WellTyped → c.dependencies.MetBy k →
      c.follows k = c.survives k) :
    ∃ kids, Antecedent.expandAll k as = some kids ∧
      followsAmong children (kids.map Prod.fst) = survivesAmong as rows children kids := by
  induction h with
  | nil => exact ⟨[], rfl, rfl⟩
  | @cons a c was as cs rows hexpand _ ihrest =>
      rw [List.forall_mem_cons] at htyped haccepted hchildren
      have hfirst := hreleased _ List.mem_cons_self
      obtain ⟨env, henv⟩ := Antecedent.exists_extend_of_release hs hexpand hfirst
      obtain ⟨⟨kid, now⟩, hkid⟩ := Antecedent.exists_expand hk henv (haccepted.1 henv)
      have hkid' : kid.WellTyped := Antecedent.wellTyped_expand hk hkid
      obtain ⟨kids, hkids, hsame⟩ := ihrest htyped.2 haccepted.2 hchildren.2
        (fun d hd => hreleased d (List.mem_cons_of_mem _ hd))
        fun d hd => ih d (List.mem_cons_of_mem _ hd)
      refine ⟨(kid, now) :: kids, ?_, ?_⟩
      · rw [Antecedent.expandAll_eq_some] at hkids ⊢
        exact .cons hkid hkids
      · rw [List.map_cons, followsAmong, survivesAmong, hsame]
        -- where the child drifts both sides answer no, whatever is below
        cases hdrifts : a.drifts c.sequent.env c.dependencies was now with
        | true => rw [if_pos rfl]
        | false =>
            have hmet := Antecedent.metBy_expand htyped.1 hs hk hexpand hkid hchildren.1 hfirst
              hdrifts
            rw [if_neg Bool.false_ne_true, ih c List.mem_cons_self kid hkid' hmet]

/-- Where the dependencies are met, a proof by builtin rules can be followed
    to the end exactly when it survives. -/
theorem follows_eq_survives (hjust : t.Everywhere (Justified Rule.Basic)) (hk : k.WellTyped)
    (hmet : t.dependencies.MetBy k) : t.follows k = t.survives k := by
  induction t generalizing k with
  | openNode node => rfl
  | applied node rule skipped children ih =>
      have hchildren : ∀ c ∈ children, c.dependencies.MetBy c.sequent :=
        fun c hc => metBy_dependencies (hjust.child c hc)
      obtain ⟨s, hsame, hs, hfits, hrecorded, hreleased⟩ := exists_recorded hjust.top hchildren
      have hbasic : rule.Basic := (hjust.top.step rule rfl).1
      rw [dependencies_applied, ← (Sequent.sameAs_spec hsame).2.1] at hmet
      obtain ⟨hfits', hreleased'⟩ := Rule.metBy_of_collect hfits hreleased hmet
      rw [survives]
      cases hadds : rule.antecedents.all fun a => a.hyps.toList.all k.env.accepts with
      | false =>
          -- a rule that adds what does not type-check does not expand
          rw [Bool.false_and]
          cases hexpand : rule.expand k with
          | none => exact follows_refused hexpand
          | some expanded =>
              obtain ⟨-, cs, hcs, -⟩ := Rule.expand_eq_some.mp hexpand
              have hall :
                  (rule.antecedents.all fun a => a.hyps.toList.all k.env.accepts) = true := by
                rw [List.all_eq_true]
                intro a ha
                obtain ⟨kid, -, hkid⟩ :=
                  exists_of_mem_right (Antecedent.expandAll_eq_some.mp hcs).flip ha
                exact List.all_eq_true.mpr (hbasic.accepts_of_expand hk ha hkid)
              rw [hall] at hadds
              exact nomatch hadds
      | true =>
          have hadds' : ∀ a ∈ rule.antecedents, ∀ p ∈ a.hyps, k.env.accepts p = true :=
            fun a ha p hp => List.all_eq_true.mp (List.all_eq_true.mp hadds a ha) p hp
          obtain ⟨kids, hkids, hequal⟩ := hrecorded.survives hs hk (fun a => hbasic.typed)
            (fun a ha => hbasic.accepted hk hfits' hadds' ha) hchildren hreleased'
            fun c hc k hk => ih c hc (hjust.child c hc) hk
          have hexpand : rule.expand k = some (kids.map Prod.fst, ⟨kids.map Prod.snd⟩) :=
            Rule.expand_eq_some.mpr ⟨hfits', kids, hkids, rfl, rfl⟩
          rw [follows_applied hexpand, hequal, hkids, Bool.true_and]
          rfl

end ProofTree

namespace Forest

/-- **What a certificate is worth.**  Take a closed tree built with the
    builtin reasoners and a sequent that meets its dependencies, and replay
    the skeleton on a new tree on that sequent, in whatever forest.  The
    replay answers whether the proof survives, and if it does every recorded
    rule is back in its place. -/
theorem reuse_survives {f g : Forest} {tree : TreeId} {t : Tree} {d : Dependencies} {s : Sequent}
    (hf : f.BuiltinReachable) (htree : f.tree? tree = some t) (hclosed : f.isClosed tree = .ok true)
    (hdeps : f.proofDependencies tree = .ok d) (hs : s.WellTyped)
    (hreusable : d.reusableOn s = true) (hg : g.Reachable) (origin : Option String) :
    ∃ root, (g.createTree s origin).2.root (g.createTree s origin).1 = .ok root ∧
      ∃ skeleton, f.skeleton t.proof.id = .ok skeleton ∧
        ((g.createTree s origin).2.reuse root skeleton).1 = .ok (t.proof.survives s) ∧
        (t.proof.survives s = true →
          ((g.createTree s origin).2.reuse root skeleton).2.skeleton root = .ok skeleton) := by
  obtain ⟨hsettled, hjust, hskeleton⟩ := hf.reachableWith.of_tree? htree
  have hd : t.proof.dependencies = d :=
    Except.ok.inj ((proofDependencies_of_tree? htree).symm.trans hdeps)
  have hlevel : t.proof.confidence.isClosed = true :=
    Except.ok.inj ((isClosed_of_tree? htree).symm.trans hclosed)
  -- that the demands are met is what makes following and surviving one thing
  rw [Dependencies.reusableOn_iff, ← hd] at hreusable
  have hsurvives := ProofTree.follows_eq_survives hjust hs hreusable
  obtain ⟨root, grown, hroot, hregrown, hanswer, hskeleton', -⟩ :=
    hg.reuse_createTree hs t.proof origin
  refine ⟨root, hroot, t.proof.skeleton, hskeleton, ?_, fun h => ?_⟩
  · rw [hanswer, hregrown.isClosed_eq hsettled hjust, hlevel, hsurvives, Bool.and_true]
  · rw [hskeleton', (hregrown.of_follows hsettled hjust (hsurvives.trans h)).1]

/-- `⊥ ⊢ ⊤` over the given names. -/
def falsity (names : List TypedName) : Sequent :=
  ⟨⟨SortedBy.ofList names⟩, SortedBy.ofList [⟨.bottom, .given, .plain⟩], .top⟩

/-- `⊥ ⊢ ⊤` over `x`, proved by a cut with `x = 1` and by `⊥` on both
    branches. -/
def detour : Forest :=
  let f := (Forest.empty.createTree (falsity [⟨"x", .integer⟩]) none).2
  let f := (f.applyReasoner ⟨0, 0⟩ Builtin.cut.reasoner
    (.predicate (.relation .eq (.ident "x") (.integer 1))) .never).forest
  let f := (f.applyReasoner ⟨1, 0⟩ Builtin.falseHyp.reasoner .empty .never).forest
  (f.applyReasoner ⟨2, 0⟩ Builtin.falseHyp.reasoner .empty .never).forest

theorem detour_reachable : BuiltinReachable detour := by
  have hcreated := BuiltinReachable.empty.createTree (falsity [⟨"x", .integer⟩]) none
    (by decide +kernel)
  exact ((hcreated.applyReasoner _ .cut _ _).applyReasoner _ .falseHyp _ _).applyReasoner _
    .falseHyp _ _

/-- The dependencies of the detour do not mention `x`. -/
theorem detour_met :
    ∃ t d, detour.tree? ⟨0⟩ = some t ∧ detour.isClosed ⟨0⟩ = .ok true ∧
      detour.proofDependencies ⟨0⟩ = .ok d ∧
      (d.reusableOn (falsity []) = true ∧ t.proof.survives (falsity []) = false) ∧
      d.reusableOn (falsity [⟨"x", .integer⟩]) = true ∧
      t.proof.survives (falsity [⟨"x", .integer⟩]) = true := by
  refine ⟨_, _, rfl, rfl, rfl, ⟨?_, ?_⟩, ?_, ?_⟩
  · decide +kernel
  · decide +kernel
  · decide +kernel
  · decide +kernel

/-- They are met with and without `x`, but only with it does the replay close. -/
theorem detour_survives :
    ∃ t d, detour.tree? ⟨0⟩ = some t ∧ detour.isClosed ⟨0⟩ = .ok true ∧
      detour.proofDependencies ⟨0⟩ = .ok d ∧
      (d.reusableOn (falsity []) = true ∧
        ∃ root, (Forest.empty.createTree (falsity []) none).2.root
            (Forest.empty.createTree (falsity []) none).1 = .ok root ∧
          ∃ skeleton, detour.skeleton t.proof.id = .ok skeleton ∧
            ((Forest.empty.createTree (falsity []) none).2.reuse root skeleton).1 = .ok false) ∧
      d.reusableOn (falsity [⟨"x", .integer⟩]) = true ∧
        ∃ root, (Forest.empty.createTree (falsity [⟨"x", .integer⟩]) none).2.root
            (Forest.empty.createTree (falsity [⟨"x", .integer⟩]) none).1 = .ok root ∧
          ∃ skeleton, detour.skeleton t.proof.id = .ok skeleton ∧
            ((Forest.empty.createTree (falsity [⟨"x", .integer⟩]) none).2.reuse root skeleton).1 =
              .ok true ∧
            ((Forest.empty.createTree (falsity [⟨"x", .integer⟩]) none).2.reuse root
              skeleton).2.skeleton root = .ok skeleton := by
  obtain ⟨t, d, htree, hclosed, hdeps, ⟨hbare, hlost⟩, hbound, hkept⟩ := detour_met
  -- one proof on two sequents: without the name it is lost, with the name it is kept
  refine ⟨t, d, htree, hclosed, hdeps, ⟨hbare, ?_⟩, hbound, ?_⟩
  · obtain ⟨root, hroot, skeleton, hskeleton, hanswer, -⟩ := reuse_survives detour_reachable htree
      hclosed hdeps (by decide +kernel) hbare .empty none
    exact ⟨root, hroot, skeleton, hskeleton, hlost ▸ hanswer⟩
  · obtain ⟨root, hroot, skeleton, hskeleton, hanswer, hback⟩ := reuse_survives detour_reachable
      htree hclosed hdeps (by decide +kernel) hbound .empty none
    exact ⟨root, hroot, skeleton, hskeleton, hkept ▸ hanswer, hback hkept⟩

end Forest

end SequentProver
