import SequentProver.Proofs.Reachable
import SequentProver.Proofs.RuleSoundness

/-! # Soundness of the kernel

    Whatever is done to a forest with the builtin reasoners, a tree above
    the level of a review has a valid sequent at its root.

    The levels carry the argument: a tree is at most at the level of its
    lowest rule and is not even closed while a node is open, so above the
    level of a review every node has a sound rule.  Soundness then goes from
    the leaves to the root. -/

universe u

namespace SequentProver

/-! ## Discharged trees -/

/-- A discharged proof from builtin rules proves its sequent. -/
theorem ProofTree.valid_of_discharged {t : ProofTree}
    (ht : t.Everywhere (Justified Rule.Basic)) (hsettled : t.Settled)
    (hdischarged : t.confidence.isDischarged = true) : t.sequent.Valid.{u} := by
  induction t with
  | openNode node =>
      -- an open node is at one of two levels, neither of them high enough
      have hlevel : node.confidence = if node.comment = "" then .unattempted else .pending :=
        hsettled.top
      have hnode : node.confidence.isDischarged = true := hdischarged
      rw [hlevel] at hnode
      split at hnode <;> exact absurd hnode (by decide)
  | applied node rule skipped children ih =>
      have hlevel : node.confidence = level (.applied node rule skipped children) := hsettled.top
      have hnode : node.confidence.isDischarged = true := hdischarged
      rw [hlevel, Confidence.isDischarged, decide_eq_true_eq, lt_level_applied] at hnode
      obtain ⟨hrule, hchildren⟩ := hnode
      obtain ⟨hbasic, s, hsame, hexpand⟩ := ht.top.step rule rfl
      have hwell : s.WellTyped := .of_sameAs hsame ht.top.wellTyped
      rw [← Sequent.valid_congr hsame]
      refine hbasic.sound hwell (decide_eq_true hrule) hexpand fun k hk => ?_
      obtain ⟨c, hc, rfl⟩ := List.mem_map.mp hk
      exact ih c hc (ht.child c hc) (hsettled.child c hc) (decide_eq_true (hchildren c hc))

/-! ## The builtin reasoners propose basic rules -/

/-- Builtin reasoners propose basic rules. -/
theorem Builtin.proposes_basic (b : Builtin) : b.reasoner.Proposes Rule.Basic := by
  intro s input monitor rule monitor' hrun
  exact basic_of_propose (congrArg Prod.fst hrun) input

/-- A registry proposes what its reasoners propose. -/
theorem Registry.proposes_insertAll {allowed : Rule → Prop} {reasoners : List Reasoner}
    {r : Registry} (hr : r.Proposes allowed) (h : ∀ x ∈ reasoners, x.Proposes allowed) :
    (reasoners.foldl Registry.insert r).Proposes allowed := by
  induction reasoners generalizing r with
  | nil => exact hr
  | cons x rest ih =>
      refine ih ?_ fun y hy => h y (List.mem_cons_of_mem _ hy)
      intro id reasoner hfind
      have hfind : (if x.id = id then some x else r.find? id) = some reasoner :=
        (SortedBy.find?_insert x r.reasoners id).symm.trans hfind
      split at hfind
      · cases hfind
        exact h x List.mem_cons_self
      · exact hr id reasoner hfind

/-- The builtin registry proposes basic rules. -/
theorem Registry.proposes_builtin : Registry.builtin.Proposes Rule.Basic := by
  refine proposes_insertAll (fun id reasoner hfind => nomatch hfind) fun x hx => ?_
  obtain ⟨b, -, rfl⟩ := List.mem_map.mp hx
  exact b.proposes_basic

/-! ## Forests made with the builtin reasoners -/

namespace Forest

/-- The forest is made by operations that bring in no rules but those of the
    builtin reasoners.  Skeletons are taken from forests made likewise. -/
inductive BuiltinReachable : Forest → Prop
  | empty : BuiltinReachable Forest.empty
  | createTree {f : Forest} (reachable : BuiltinReachable f) (sequent : Sequent)
      (origin : Option String) (wellTyped : sequent.WellTyped) :
      BuiltinReachable (f.createTree sequent origin).2
  | applyReasoner {f : Forest} (reachable : BuiltinReachable f) (node : NodeId) (b : Builtin)
      (input : Input) (monitor : Monitor) :
      BuiltinReachable (f.applyReasoner node b.reasoner input monitor).forest
  | setComment {f : Forest} (reachable : BuiltinReachable f) (node : NodeId) (comment : String) :
      BuiltinReachable (f.setComment node comment).2
  | pruneChildren {f : Forest} (reachable : BuiltinReachable f) (node : NodeId) :
      BuiltinReachable (f.pruneChildren node).2
  | pruneAndDiscard {f : Forest} (reachable : BuiltinReachable f) (node : NodeId) :
      BuiltinReachable (f.pruneAndDiscard node).2
  | copySubtree {f : Forest} (reachable : BuiltinReachable f) (node : NodeId) :
      BuiltinReachable (f.copySubtree node).2
  | graft {f : Forest} (reachable : BuiltinReachable f) (node : NodeId) (source : TreeId) :
      BuiltinReachable (f.graft node source).2
  | removeTree {f : Forest} (reachable : BuiltinReachable f) (tree : TreeId) :
      BuiltinReachable (f.removeTree tree).2
  | reuse {f g : Forest} {source : NodeId} {skeleton : Skeleton} (reachable : BuiltinReachable f)
      (recorded : BuiltinReachable g) (taken : g.skeleton source = .ok skeleton) (node : NodeId) :
      BuiltinReachable (f.reuse node skeleton).2
  | rebuild {f g : Forest} {source : NodeId} {skeleton : Skeleton}
      (reachable : BuiltinReachable f) (recorded : BuiltinReachable g)
      (taken : g.skeleton source = .ok skeleton) (node : NodeId) (monitor : Monitor)
      (config : ReplayConfig) :
      BuiltinReachable (f.rebuild node skeleton Registry.builtin monitor config).2

/-- The rules of a skeleton are rules of the forest it is taken from. -/
theorem ReachableWith.every_skeleton {allowed : Rule → Prop} {f : Forest} {n : NodeId}
    {skeleton : Skeleton} (h : f.ReachableWith allowed) (htaken : f.skeleton n = .ok skeleton) :
    skeleton.Every allowed := by
  rw [Forest.skeleton, nodeOrError] at htaken
  split at htaken
  · rename_i p hnode
    cases htaken
    obtain ⟨⟨t, p'⟩, located, rfl⟩ := Option.map_eq_some_iff.mp hnode
    exact ProofTree.every_skeleton (h.wf.of_locate? (locate?_bench_of located [])).2
  · exact nomatch htaken

/-- With builtin reasoners only, all rules are basic. -/
theorem BuiltinReachable.reachableWith {f : Forest} (h : f.BuiltinReachable) :
    f.ReachableWith Rule.Basic := by
  induction h with
  | empty => exact .empty
  | createTree _ sequent origin wellTyped ih =>
      exact .step (.createTree sequent origin) ih wellTyped
  | applyReasoner _ node b input monitor ih =>
      exact .step (.applyReasoner node b.reasoner input monitor) ih b.proposes_basic
  | setComment _ node comment ih => exact .step (.setComment node comment) ih trivial
  | pruneChildren _ node ih => exact .step (.pruneChildren node) ih trivial
  | pruneAndDiscard _ node ih => exact .step (.pruneAndDiscard node) ih trivial
  | copySubtree _ node ih => exact .step (.copySubtree node) ih trivial
  | graft _ node source ih => exact .step (.graft node source) ih trivial
  | removeTree _ tree ih => exact .step (.removeTree tree) ih trivial
  | @reuse f g source skeleton _ _ taken node ih ihg =>
      exact .step (.reuse node skeleton) ih (ihg.every_skeleton taken)
  | @rebuild f g source skeleton _ _ taken node monitor config ih ihg =>
      exact .step (.rebuild node skeleton Registry.builtin monitor config) ih
        ⟨ihg.every_skeleton taken, Registry.proposes_builtin⟩

/-- **Soundness.**  In a forest made with the builtin reasoners the sequent
    at the root of a discharged tree is valid. -/
theorem discharged_tree_valid {f : Forest} (hf : f.BuiltinReachable) {tree : TreeId}
    {c : Confidence} (hconfidence : f.confidence tree = .ok c)
    (hdischarged : c.isDischarged = true) :
    ∃ t, f.tree? tree = some t ∧ t.proof.sequent.Valid.{u} := by
  rw [confidence, treeOrError] at hconfidence
  split at hconfidence
  · rename_i t htree
    cases hconfidence
    have hwf := hf.reachableWith.wf
    have hmem := Bench.mem_all_of_mem (mem_bench_of_tree? htree []).2
    exact ⟨t, htree, ProofTree.valid_of_discharged (hwf.justified _ hmem) (hwf.settled _ hmem)
      hdischarged⟩
  · exact nomatch hconfidence

/-- Something is one, and `⊥`. -/
def absurdity : Pred := .binary .and (.relation .eq (.ident "x") (.integer 1)) .bottom

/-- `∃x·x = 1 ∧ ⊥ ⊢ ⊥`, proved by taking the hypothesis apart. -/
def refutation : Forest :=
  let source : Pred := .quantified .existential [⟨"x", .integer⟩] absurdity
  let f := (Forest.empty.createTree
    ⟨.empty, SortedBy.ofList [⟨source, .given, .plain⟩], .bottom⟩ none).2
  let f := (f.applyReasoner ⟨0, 0⟩ Builtin.existsHyp.reasoner (.predicate source) .never).forest
  let f := (f.applyReasoner ⟨1, 0⟩ Builtin.conjHyp.reasoner (.predicate absurdity) .never).forest
  (f.applyReasoner ⟨2, 0⟩ Builtin.falseHyp.reasoner .empty .never).forest

theorem refutation_reachable : BuiltinReachable refutation := by
  have hcreated := BuiltinReachable.empty.createTree
    ⟨.empty,
      SortedBy.ofList [⟨.quantified .existential [⟨"x", .integer⟩] absurdity, .given, .plain⟩],
      .bottom⟩ none (by decide +kernel)
  exact ((hcreated.applyReasoner _ .existsHyp _ _).applyReasoner _ .conjHyp _ _).applyReasoner _
    .falseHyp _ _

theorem refutation_valid :
    refutation.confidence ⟨0⟩ = .ok .dischargedMax ∧ Confidence.dischargedMax.isDischarged = true ∧
      ∃ t, refutation.tree? ⟨0⟩ = some t ∧ t.proof.sequent.Valid.{0} :=
  ⟨rfl, by decide, discharged_tree_valid refutation_reachable rfl (by decide)⟩

end Forest

end SequentProver
