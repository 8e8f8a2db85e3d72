import SequentProver.Proofs.CertificateDescent
import SequentProver.Proofs.Following
import SequentProver.Proofs.OwnCertificate

/-! # Replaying self-contained rules

    A rule is self-contained when its antecedents only mark hypotheses and
    mention no names but those of the rule's goal and needed hypotheses and
    the names they add.  For proofs made of such rules the certificate is all
    that a replay needs: on every sequent that meets it the same proof grows,
    with the same certificate.

    The certificate goes down the tree along with the replay.  At a node it
    says that the rule fits and that the names the rule mentions are bound as
    they were, so that the antecedents type-check; what an antecedent gave up
    it adds again, so that the child meets the certificate of its subtree. -/

namespace SequentProver

/-! ## Self-contained rules -/

/-- A change of standings. -/
def Action.isMark : Action → Bool
  | .mark _ _ => true
  | _ => false

/-- The goal and the hypotheses that an antecedent brings in. -/
def Antecedent.brought (a : Antecedent) : List Pred := a.goal.toList ++ a.hyps.toList

/-- The goal and the hypotheses that a rule asks for. -/
def Rule.asked (r : Rule) : List Pred := r.goal.toList ++ r.needed.toList

/-- Antecedents only mark hypotheses, and what they bring in mentions names
    that the rule asks for or that they add themselves. -/
def Rule.selfContained (r : Rule) : Bool :=
  r.antecedents.all fun a =>
    a.actions.all Action.isMark &&
      a.brought.all fun p => p.freeList.all fun x =>
        (r.asked.any fun q => q.freeList.contains x) || a.idents.any fun n => n.name = x

/-- Being self-contained, antecedent by antecedent. -/
theorem Rule.selfContained_iff {r : Rule} :
    r.selfContained = true ↔ ∀ a ∈ r.antecedents, (∀ act ∈ a.actions, act.isMark = true) ∧
      ∀ p ∈ a.brought, ∀ x ∈ p.freeList,
        (∃ q ∈ r.asked, x ∈ q.freeList) ∨ ∃ n ∈ a.idents, n.name = x := by
  simp only [selfContained, List.all_eq_true, Bool.and_eq_true, Bool.or_eq_true, List.any_eq_true,
    List.contains_iff_mem, decide_eq_true_eq]

/-! ## Marks -/

/-- A mark adds nothing. -/
theorem Action.typed_of_isMark {a : Action} (h : a.isMark = true) : a.Typed := by
  cases a with
  | mark m hyps =>
      intro s _ _ env _ p hp
      exact absurd hp List.not_mem_nil
  | infer _ _ _ => cases h
  | replace _ _ _ => cases h

/-- A mark has no names that could get lost. -/
theorem Action.not_drifts_of_isMark {a : Action} (h : a.isMark = true) (d : Dependencies)
    (was now : Bool) : a.drifts d was now = false := by
  cases a with
  | mark m hyps => cases was <;> cases now <;> rfl
  | infer _ _ _ => cases h
  | replace _ _ _ => cases h

/-- Marks do not drift: they bind no names. -/
theorem Action.not_driftsAmong_marks {actions : List Action}
    (h : ∀ a ∈ actions, a.isMark = true) (env : TypeEnv) (d : Dependencies)
    (flags flags' : List Bool) : driftsAmong env d actions flags flags' = false := by
  induction actions generalizing flags flags' with
  | nil => rfl
  | cons a rest ih =>
      rw [List.forall_mem_cons] at h
      cases flags with
      | nil => rfl
      | cons was flags =>
          cases flags' with
          | nil => rfl
          | cons now flags' =>
              rw [driftsAmong, not_drifts_of_isMark h.1, ih h.2]
              rfl

/-- Marks are not accounted for. -/
theorem Action.releaseAll_marks {actions : List Action} (h : ∀ a ∈ actions, a.isMark = true)
    (env : TypeEnv) (flags : List Bool) (d : Dependencies) :
    releaseAll env actions flags d = d := by
  induction actions generalizing flags with
  | nil => rfl
  | cons a rest ih =>
      have ha := h a List.mem_cons_self
      have hrest := ih (fun b hb => h b (List.mem_cons_of_mem _ hb)) flags.tail
      rw [releaseAll]
      cases a with
      | mark m hyps =>
          split
          · exact hrest
          · exact hrest
      | infer _ _ _ => cases ha
      | replace _ _ _ => cases ha

namespace Antecedent

variable {a : Antecedent} {d : Dependencies} {s k t : Sequent} {flags : List Bool}

/-- Marks release nothing, so an antecedent with marks only gives up what it
    added. -/
theorem release_marks (h : ∀ act ∈ a.actions, act.isMark = true) (env : TypeEnv)
    (flags : List Bool) (d : Dependencies) : a.release env flags d = a.giveUp d := by
  rw [release_eq, Action.releaseAll_marks h]

/-- What type-checked once the names were bound does so again, if the other
    names it mentions are bound alike. -/
theorem Accepted.transfer {env env' : TypeEnv} (h : a.Accepted env)
    (henv : s.env.extend a.idents = .ok env) (henv' : k.env.extend a.idents = .ok env')
    (hnames : ∀ p ∈ a.brought, ∀ x ∈ p.freeList,
      (∃ ty, s.env.typeOf? x = some ty ∧ k.env.typeOf? x = some ty) ∨ ∃ n ∈ a.idents, n.name = x) :
    a.Accepted env' := by
  have hagree : ∀ p ∈ a.brought, env.accepts p = env'.accepts p := by
    intro p hp
    refine TypeEnv.accepts_congr fun x hx => ?_
    rcases hnames p hp x hx with ⟨ty, hty, hty'⟩ | ⟨n, hn, rfl⟩
    · rw [TypeEnv.extends_of_extend henv x ty hty, TypeEnv.extends_of_extend henv' x ty hty']
    · rw [TypeEnv.typeOf?_extend_of_mem henv hn, TypeEnv.typeOf?_extend_of_mem henv' hn]
  constructor
  · intro g hg
    rw [← hagree g (List.mem_append_left _ (Option.mem_toList.mpr hg))]
    exact h.1 g hg
  · intro p hp
    rw [← hagree p (List.mem_append_right _ hp)]
    exact h.2 p hp

/-- An antecedent that only marks expands on every sequent that meets what it
    gave up, and the child meets what its child met. -/
theorem exists_expand_of_marks (hmarks : ∀ act ∈ a.actions, act.isMark = true)
    (hs : s.WellTyped) (hk : k.WellTyped) (hexpand : a.expand s = some (t, flags))
    (hd : d.MetBy t) (hreleased : (a.release t.env flags d).MetBy k)
    (hnames : ∀ p ∈ a.brought, ∀ x ∈ p.freeList,
      (∃ ty, s.env.typeOf? x = some ty ∧ k.env.typeOf? x = some ty) ∨ ∃ n ∈ a.idents, n.name = x) :
    ∃ kid, a.expand k = some kid ∧ d.MetBy kid.1 := by
  obtain ⟨mid, hmid, -⟩ := expand_eq_some.mp hexpand
  have hstaged := staged_of_stage hs hmid
  obtain ⟨env, henv⟩ := exists_extend_of_release hs hexpand hreleased
  have hacc : a.Accepted env := hstaged.accepted.transfer hstaged.env henv hnames
  obtain ⟨kid, hkid⟩ := exists_expand hk henv hacc
  refine ⟨kid, hkid, ?_⟩
  exact metBy_expand (fun act hact => Action.typed_of_isMark (hmarks act hact)) hs hk hexpand hkid
    hd hreleased (Action.not_driftsAmong_marks hmarks t.env d flags kid.2)

end Antecedent

/-! ## The names that a rule asks for -/

/-- A bound name is among the names. -/
theorem TypeEnv.mem_names {env : TypeEnv} {x : String} {ty : Ty} (h : env.typeOf? x = some ty) :
    x ∈ env.names := by
  obtain ⟨n, hn, -⟩ := Option.map_eq_some_iff.mp h
  have hname : n.name = x := by simpa using List.find?_some hn
  exact List.mem_map.mpr ⟨n, List.mem_of_find?_eq_some hn, hname⟩

namespace Rule

variable {r : Rule} {s k : Sequent} {released : List Dependencies} {p : Pred} {x : String}

/-- The names of the goal and of the needed hypotheses are part of the
    certificate, so where it is met they are bound alike. -/
theorem typeOf?_of_collect (hs : s.WellTyped) (hfits : r.fits s = true)
    (hreleased : ∀ d ∈ released, d.MetBy s) (hk : (r.collect released s.env).MetBy k)
    (hp : (r.collect released s.env).goal = some p ∨ p ∈ r.needed) (hx : x ∈ p.freeList)
    (hvalid : ∀ ty, s.env.typeOf? x = some ty → isValidName x = true) :
    ∃ ty, s.env.typeOf? x = some ty ∧ k.env.typeOf? x = some ty := by
  obtain ⟨hgoal, -, hidents, -⟩ := collect_spec r released s.env
  -- goal and hypotheses are typed in the sequent of the proof
  have haccepts : s.env.accepts p = true := by
    rcases hp with hp | hp
    · rw [eq_goal_of_chosen hfits hreleased (hgoal.symm.trans hp)]
      exact hs.goal
    · exact hs.hyps p ((fits_iff.mp hfits).1 p hp)
  obtain ⟨ty, hty⟩ := TypeEnv.typeOf?_of_accepts haccepts hx
  have hfree : (⟨x, ty⟩ : TypedName) ∈ s.env.freeIdents p :=
    TypeEnv.mem_freeIdents.mpr ⟨hx, hvalid ty hty, hty⟩
  have hmem : (⟨x, ty⟩ : TypedName) ∈ (r.collect released s.env).idents := by
    refine (hidents _).mpr (Or.inr ?_)
    rcases hp with hp | hp
    · exact Or.inl ⟨p, hp, hfree⟩
    · exact Or.inr ⟨p, hp, hfree⟩
  exact ⟨ty, hty, hk.covered.typeOf? hmem⟩

/-- Where the certificate is met the rule collects it again. -/
theorem collect_congr (hs : s.WellTyped) (hfits : r.fits s = true)
    (hreleased : ∀ d ∈ released, d.MetBy s) (hk : (r.collect released s.env).MetBy k) :
    r.collect released k.env = r.collect released s.env := by
  -- both environments type the names of the demands alike, by the lemma above
  have hfree : ∀ p, (r.collect released s.env).goal = some p ∨ p ∈ r.needed →
      k.env.freeIdents p = s.env.freeIdents p := by
    intro p hp
    refine TypeEnv.freeIdents_congr fun x hx hvalid => ?_
    obtain ⟨ty, hty, hty'⟩ := typeOf?_of_collect hs hfits hreleased hk hp hx
      fun _ _ => hvalid
    rw [hty, hty']
  have huse : ∀ d : Dependencies,
      d.useHyps r.needed.toList k.env = d.useHyps r.needed.toList s.env := by
    intro d
    refine List.foldl_ext _ _ _ fun e q hq => ?_
    rw [Dependencies.useHyp, Dependencies.useHyp, hfree q (Or.inr hq)]
  rw [(collect_spec r released s.env).1] at hfree
  rw [collect, collect]
  cases hgoal : r.goal <|> released.findSome? Dependencies.goal with
  | none =>
      dsimp only
      rw [huse]
  | some g =>
      have hset : ∀ d : Dependencies, d.setGoal g k.env = d.setGoal g s.env := by
        intro d
        rw [Dependencies.setGoal, Dependencies.setGoal, hfree g (Or.inl hgoal)]
      dsimp only
      rw [hset, huse]

end Rule

/-! ## Down the tree -/

namespace ProofTree

variable {allowed : Rule → Prop} {t : ProofTree} {s k : Sequent}

/-- What a replay below a node comes to, antecedent by antecedent. -/
theorem Recorded.replay {as : List Antecedent} {children : List ProofTree}
    {rows : List (List Bool)} (h : Recorded s as children rows) (hs : s.WellTyped)
    (hk : k.WellTyped) (hmarks : ∀ a ∈ as, ∀ act ∈ a.actions, act.isMark = true)
    (hnames : ∀ a ∈ as, ∀ p ∈ a.brought, ∀ x ∈ p.freeList,
      (∃ ty, s.env.typeOf? x = some ty ∧ k.env.typeOf? x = some ty) ∨ ∃ n ∈ a.idents, n.name = x)
    (hchildren : ∀ c ∈ children, c.dependencies.MetBy c.sequent)
    (hreleased : ∀ d ∈ Rule.releaseChildren as rows
      (children.map fun t => (t.dependencies, t.sequent.env)), d.MetBy k)
    (ih : ∀ c ∈ children, ∀ k : Sequent, k.WellTyped → c.dependencies.MetBy k →
      c.follows k = true ∧ ∀ grown, c.Regrown k grown → grown.dependencies = c.dependencies) :
    ∃ kids, Antecedent.expandAll k as = some kids ∧
      followsAmong children (kids.map Prod.fst) = true ∧
      ∀ others, RegrownAmong children (kids.map Prod.fst) others →
        Rule.releaseChildren as (kids.map Prod.snd)
            (others.map fun t => (t.dependencies, t.sequent.env)) =
          Rule.releaseChildren as rows (children.map fun t => (t.dependencies, t.sequent.env)) := by
  induction h with
  | nil =>
      refine ⟨[], rfl, rfl, fun others hothers => ?_⟩
      cases hothers
      rfl
  | @cons a c flags as cs rows hexpand _ ihrest =>
      rw [List.forall_mem_cons] at hmarks hnames hchildren
      have hfirst := hreleased _ List.mem_cons_self
      obtain ⟨kid, hkid, hmet⟩ := Antecedent.exists_expand_of_marks hmarks.1 hs hk hexpand
        hchildren.1 hfirst hnames.1
      have hkid' : kid.1.WellTyped := Antecedent.wellTyped_expand hk hkid
      obtain ⟨hfollows, hgrown⟩ := ih c List.mem_cons_self kid.1 hkid' hmet
      obtain ⟨kids, hkids, hfollows', hgrown'⟩ := ihrest hmarks.2 hnames.2 hchildren.2
        (fun d hd => hreleased d (List.mem_cons_of_mem _ hd))
        fun d hd => ih d (List.mem_cons_of_mem _ hd)
      refine ⟨kid :: kids, ?_, ?_, ?_⟩
      · rw [Antecedent.expandAll_eq_some] at hkids ⊢
        exact .cons hkid hkids
      · rw [List.map_cons, followsAmong, hfollows, hfollows']
        rfl
      · rintro others (_ | ⟨first, rest⟩)
        -- marks release nothing, so it does not matter which were skipped
        simp only [List.map_cons, Rule.releaseChildren, List.headD_cons, List.tail_cons,
          Antecedent.release_marks hmarks.1, hgrown _ first, hgrown' _ rest]

/-- On every sequent that meets the certificate a proof made of
    self-contained rules can be followed to the end, and what grows has the
    certificate again. -/
theorem follows_of_selfContained (hjust : t.Everywhere (Justified allowed))
    (hself : t.skeleton.Every fun r => r.selfContained = true)
    (hvalid : t.Everywhere fun p => p.sequent.env.names.all isValidName = true)
    (hk : k.WellTyped) (hmet : t.dependencies.MetBy k) :
    t.follows k = true ∧ ∀ grown, t.Regrown k grown → grown.dependencies = t.dependencies := by
  induction t generalizing k with
  | openNode node =>
      refine ⟨rfl, fun grown hgrown => ?_⟩
      obtain ⟨top, rfl, htop, -⟩ := hgrown.of_open
      have hgoal : node.sequent.goal = k.goal := hmet.goal node.sequent.goal rfl
      have hfree : k.env.freeIdents k.goal = node.sequent.env.freeIdents node.sequent.goal := by
        rw [← hgoal]
        refine TypeEnv.freeIdents_congr fun x hx hname => ?_
        obtain ⟨ty, hty⟩ := TypeEnv.typeOf?_of_accepts hjust.top.wellTyped.goal hx
        have hmem : (⟨x, ty⟩ : TypedName) ∈ (Dependencies.openLeaf node.sequent).idents :=
          SortedSet.mem_union.mpr (Or.inr (TypeEnv.mem_freeIdents.mpr ⟨hx, hname, hty⟩))
        rw [hmet.covered.typeOf? hmem]
        exact hty.symm
      rw [dependencies_settled, dependencies, dependencies, htop, Dependencies.openLeaf,
        Dependencies.openLeaf, Dependencies.setGoal, Dependencies.setGoal, hfree, hgoal]
  | applied node rule skipped children ih =>
      have hchildren : ∀ c ∈ children, c.dependencies.MetBy c.sequent :=
        fun c hc => metBy_dependencies (hjust.child c hc)
      -- the rule expanded on a sequent that may differ from the node's in origins only
      obtain ⟨s, hsame, hs, hfits, hrecorded, hreleased⟩ := exists_recorded hjust.top hchildren
      have henv : s.env = node.sequent.env := (Sequent.sameAs_spec hsame).2.1
      rw [dependencies_applied, ← henv] at hmet
      obtain ⟨hfits', hreleased'⟩ := Rule.metBy_of_collect hfits hreleased hmet
      obtain ⟨hrule, hbelow⟩ := hself.applied
      have hcontained := Rule.selfContained_iff.mp hrule
      have hnames : ∀ a ∈ rule.antecedents, ∀ p ∈ a.brought, ∀ x ∈ p.freeList,
          (∃ ty, s.env.typeOf? x = some ty ∧ k.env.typeOf? x = some ty) ∨
            ∃ n ∈ a.idents, n.name = x := by
        intro a ha p hp x hx
        refine ((hcontained a ha).2 p hp x hx).imp_left ?_
        rintro ⟨q, hq, hx⟩
        refine Rule.typeOf?_of_collect hs hfits hreleased hmet ?_ hx fun ty hty => ?_
        · refine (List.mem_append.mp hq).imp_left fun hq => ?_
          rw [(Rule.collect_spec rule _ s.env).1, Option.mem_toList.mp hq]
          rfl
        · rw [henv] at hty
          exact List.all_eq_true.mp hvalid.top x (TypeEnv.mem_names hty)
      obtain ⟨kids, hkids, hfollows, hrelease⟩ := hrecorded.replay hs hk
        (fun a ha => (hcontained a ha).1) hnames hchildren hreleased'
        fun c hc k hk => ih c hc (hjust.child c hc) (hbelow c hc) (hvalid.child c hc) hk
      have hexpand : rule.expand k = some (kids.map Prod.fst, ⟨kids.map Prod.snd⟩) :=
        Rule.expand_eq_some.mpr ⟨hfits', kids, hkids, rfl, rfl⟩
      refine ⟨(follows_applied hexpand).trans hfollows, fun grown hgrown => ?_⟩
      obtain ⟨top, others, rfl, htop, -, hamong⟩ :=
        hgrown.of_applied hexpand (hjust.top.length_eq hexpand)
      have hsame : rule.released ⟨kids.map Prod.snd⟩ others = rule.released skipped children :=
        hrelease others hamong
      rw [dependencies_settled, dependencies_applied, dependencies_applied, htop, ← henv, hsame]
      exact Rule.collect_congr hs hfits hreleased hmet

end ProofTree

namespace Forest

/-- **Self-contained rules can be replayed.**  Let every rule of a tree be
    self-contained, with valid names throughout, and let a sequent meet the
    dependencies of the tree.  Replaying its skeleton on a new tree on that
    sequent, in whatever forest, gives the same skeleton and the same
    dependencies, and answers whether the tree was closed. -/
theorem reuse_selfContained {f g : Forest} {tree : TreeId} {t : Tree} {d : Dependencies}
    {s : Sequent} (hf : f.Reachable) (htree : f.tree? tree = some t)
    (hself : t.proof.skeleton.Every fun r => r.selfContained = true)
    (hvalid : t.proof.Everywhere fun p => p.sequent.env.names.all isValidName = true)
    (hdeps : f.proofDependencies tree = .ok d) (hs : s.WellTyped)
    (hreusable : d.reusableOn s = true) (hg : g.Reachable) (origin : Option String) :
    ∃ root, (g.createTree s origin).2.root (g.createTree s origin).1 = .ok root ∧
      ∃ skeleton, f.skeleton t.proof.id = .ok skeleton ∧
        ((g.createTree s origin).2.reuse root skeleton).1 = f.isClosed tree ∧
        ((g.createTree s origin).2.reuse root skeleton).2.skeleton root = .ok skeleton ∧
        ((g.createTree s origin).2.reuse root skeleton).2.proofDependencies
          (g.createTree s origin).1 = .ok d := by
  obtain ⟨hsettled, hjust, hskeleton⟩ := hf.of_tree? htree
  have hd : t.proof.dependencies = d :=
    Except.ok.inj ((proofDependencies_of_tree? htree).symm.trans hdeps)
  -- that the demands are met is the hypothesis; the rest is about any proof that follows
  rw [Dependencies.reusableOn_iff, ← hd] at hreusable
  obtain ⟨hfollows, hgrown⟩ := ProofTree.follows_of_selfContained hjust hself hvalid hs hreusable
  obtain ⟨root, grown, hroot, hregrown, hanswer, hskeleton', hdeps'⟩ :=
    hg.reuse_createTree hs t.proof origin
  obtain ⟨hsame, hlevel⟩ := hregrown.of_follows hsettled hjust hfollows
  refine ⟨root, hroot, t.proof.skeleton, hskeleton, ?_, ?_, ?_⟩
  · rw [hanswer, isClosed_of_tree? htree, hlevel]
  · rw [hskeleton', hsame]
  · rw [hdeps', hgrown grown hregrown, hd]

/-- A rule that takes `∀x·x = 1` to `x = 1` and hides `⊤`. -/
def instancing : Rule where
  reasoner := "instance"
  display := "instance"
  goal := some (.quantified .universal [⟨"x", .integer⟩] (.relation .eq (.ident "x") (.integer 1)))
  confidence := .dischargedMax
  antecedents := [{
    goal := some (.relation .eq (.ident "x") (.integer 1))
    idents := [⟨"x", .integer⟩]
    actions := [.mark .hide (SortedBy.ofList [.top])] }]

/-- `⊤ ⊢ ∀x·x = 1` with that rule, and a comment on the open leaf. -/
def instanced : Forest :=
  let f := (Forest.empty.createTree ⟨.empty, SortedBy.ofList [⟨.top, .given, .plain⟩],
    .quantified .universal [⟨"x", .integer⟩] (.relation .eq (.ident "x") (.integer 1))⟩ none).2
  ((f.applyRule ⟨0, 0⟩ instancing).2.setComment ⟨1, 0⟩ "to do").2

/-- The same goal under `y = 2`. -/
def elsewhere : Sequent :=
  ⟨⟨SortedBy.ofList [⟨"y", .integer⟩]⟩,
    SortedBy.ofList [⟨.relation .eq (.ident "y") (.integer 2), .given, .selected⟩],
    .quantified .universal [⟨"x", .integer⟩] (.relation .eq (.ident "x") (.integer 1))⟩

theorem instanced_reachable : Reachable instanced := by
  have hcreated : Reachable _ := .step (.createTree ⟨.empty,
    SortedBy.ofList [⟨.top, .given, .plain⟩], .quantified .universal [⟨"x", .integer⟩]
      (.relation .eq (.ident "x") (.integer 1))⟩ none) .empty (by
        show Sequent.WellTyped _
        decide +kernel)
  exact .step (.setComment ⟨1, 0⟩ "to do") (.step (.applyRule ⟨0, 0⟩ instancing) hcreated trivial)
    trivial

theorem instanced_selfContained :
    ∃ t, instanced.tree? ⟨0⟩ = some t ∧
      (t.proof.skeleton.Every fun r => r.selfContained = true) ∧
      (t.proof.Everywhere fun p => p.sequent.env.names.all isValidName = true) ∧
      ∃ d, instanced.proofDependencies ⟨0⟩ = .ok d ∧ d.reusableOn elsewhere = true := by
  refine ⟨_, rfl, ?_, ?_, _, rfl, ?_⟩
  · refine .mk ?_ ?_
    · rintro r ⟨⟩
      decide
    · intro c hc
      cases List.mem_singleton.mp hc
      exact .mk (fun r hr => nomatch hr) fun c hc => nomatch hc
  · refine .mk (by decide) ?_
    intro c hc
    cases List.mem_singleton.mp hc
    exact .of_open (by decide +kernel)
  · decide +kernel

theorem instanced_reused :
    ∃ t d, instanced.tree? ⟨0⟩ = some t ∧ instanced.proofDependencies ⟨0⟩ = .ok d ∧
      d.reusableOn elsewhere = true ∧ elsewhere.WellTyped ∧
      ∃ root, (Forest.empty.createTree elsewhere none).2.root
          (Forest.empty.createTree elsewhere none).1 = .ok root ∧
        ∃ skeleton, instanced.skeleton t.proof.id = .ok skeleton ∧
          ((Forest.empty.createTree elsewhere none).2.reuse root skeleton).1 =
            instanced.isClosed ⟨0⟩ ∧
          ((Forest.empty.createTree elsewhere none).2.reuse root skeleton).2.skeleton root =
            .ok skeleton ∧
          ((Forest.empty.createTree elsewhere none).2.reuse root skeleton).2.proofDependencies
            (Forest.empty.createTree elsewhere none).1 = .ok d := by
  obtain ⟨t, htree, hself, hvalid, d, hdeps, hreusable⟩ := instanced_selfContained
  have helsewhere : elsewhere.WellTyped := by decide +kernel
  exact ⟨t, d, htree, hdeps, hreusable, helsewhere, reuse_selfContained instanced_reachable htree
    hself hvalid hdeps helsewhere hreusable .empty none⟩

end Forest

end SequentProver
