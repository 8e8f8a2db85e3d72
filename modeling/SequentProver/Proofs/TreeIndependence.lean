import SequentProver.Proofs.HandleHistory
import SequentProver.Proofs.RebuildRefinement

/-! # Trees do not touch each other

    All trees of a forest share the slots, and subtrees move from tree to
    tree.  Still an operation leaves every tree alone that it is not on: each
    node there is seen as before, with its parent and its level.  Subtrees that
    are taken off a node are seen as before in their new trees, but for the
    tree itself and the parent at the top, and a copy leaves every node as it
    was.

    Route:
    1. `NodeView`, all that a forest tells about a node, read off its tree;
    2. `Spares`, that some trees stand unchanged, and then their nodes do;
    3. a rebuild stays in the tree of its node, since the nodes it goes down
       to are there, and a reuse is a rebuild without reasoners;
    4. all operations, and what a prune does to the subtrees it takes off. -/

namespace SequentProver

/-! ## What is seen of a node -/

/-- All that a forest tells about a node. -/
structure NodeView where
  tree : TreeId
  parent : Option NodeId
  sequent : Sequent
  rule : Option Rule
  skipped : SkippedActions
  comment : String
  children : List NodeId
  confidence : Confidence
  deriving DecidableEq

/-- The node at the top, as seen from a tree and a parent. -/
def ProofTree.view (p : ProofTree) (tree : TreeId) (parent : Option NodeId) : NodeView :=
  ⟨tree, parent, p.sequent, p.rule?, p.skipped, p.comment, p.children.map ProofTree.id,
    p.confidence⟩

/-- Inside a subtree, every node but the top one has the parent that it has in
    the whole tree. -/
theorem ProofTree.parent?_of_find? {t p : ProofTree} {n m : NodeId} (hids : t.ids.Nodup)
    (hfind : t.find? n = some p) (hm : m ∈ p.ids) (hne : m ≠ p.id) : t.parent? m = p.parent? m := by
  obtain ⟨k, hk⟩ := exists_parent? hm hne
  obtain ⟨q, hq, hchild⟩ := (parent?_eq_some (nodup_ids_find? hids hfind)).mp hk
  rw [hk]
  exact (parent?_eq_some hids).mpr ⟨q, find?_trans hids hfind hq, hchild⟩

namespace Forest

variable {allowed : Rule → Prop} {f g h : Forest} {n m : NodeId} {tree : TreeId} {t : Tree}
  {p : ProofTree} {v : NodeView}

/-- What can be seen of a node from outside. -/
def view? (f : Forest) (n : NodeId) : Option NodeView :=
  (f.locate? n).map fun found => found.2.view found.1.id (f.parent? n)

/-- A node that is located has the tree where it is. -/
theorem treeOf_of_locate? (located : f.locate? n = some (t, p)) : f.treeOf n = .ok t.id := by
  rw [treeOf, located]

/-- What is seen of a node is what stands in its tree. -/
theorem view?_eq_some (hf : (f.bench []).Wf allowed) :
    f.view? n = some v ↔ ∃ proof p, (v.tree, proof) ∈ (f.bench []).proofs ∧
      proof.find? n = some p ∧ v = p.view v.tree (proof.parent? n) := by
  rw [view?, Option.map_eq_some_iff]
  constructor
  · rintro ⟨⟨t, p⟩, hlocate, rfl⟩
    obtain ⟨ht, hfind⟩ := (locate?_eq_some hf).mp hlocate
    refine ⟨t.proof, p, List.mem_map.mpr ⟨t, ht, rfl⟩, hfind, ?_⟩
    rw [parent?_eq hf ht (ProofTree.mem_ids_of_find? hfind)]
    rfl
  · rintro ⟨proof, p, hmem, hfind, hv⟩
    obtain ⟨t, ht, heq⟩ := List.mem_map.mp hmem
    obtain ⟨hid, rfl⟩ := Prod.mk.inj heq
    refine ⟨(t, p), (locate?_eq_some hf).mpr ⟨ht, hfind⟩, ?_⟩
    dsimp only
    rw [hv, hid, parent?_eq hf ht (ProofTree.mem_ids_of_find? hfind)]

/-! ## Trees that stand unchanged -/

/-- Every tree stands unchanged, but for those of a kind. -/
def Spares (touched : TreeId → Prop) (f g : Forest) : Prop :=
  ∀ u ∈ (f.bench []).proofs, ¬ touched u.1 → u ∈ (g.bench []).proofs

section Spares

variable {touched : TreeId → Prop}

/-- In a tree that is spared, every node looks as before. -/
theorem Spares.view? (hspares : f.Spares touched g) (hf : (f.bench []).Wf allowed)
    (hg : (g.bench []).Wf allowed) (hview : f.view? n = some v) (htree : ¬ touched v.tree) :
    g.view? n = some v := by
  obtain ⟨proof, p, hmem, hfind, hv⟩ := (view?_eq_some hf).mp hview
  exact (view?_eq_some hg).mpr ⟨proof, p, hspares _ hmem htree, hfind, hv⟩

/-- Nothing done spares everything. -/
theorem spares_refl (f : Forest) : f.Spares touched f := fun _ hu _ => hu

/-- What is spared twice is spared. -/
theorem Spares.trans (hfg : f.Spares touched g) (hgh : g.Spares touched h) : f.Spares touched h :=
  fun u hu hnot => hgh u (hfg u hu hnot) hnot

/-- The books of trees do not matter. -/
theorem spares_of_bench (heq : g.bench [] = f.bench []) : f.Spares touched g := by
  intro u hu _
  rw [heq]
  exact hu

/-- A change of one tree spares the others. -/
theorem spares_updateTree {change : Tree → Tree} (htree : touched tree) :
    f.Spares touched (f.updateTree tree change) := by
  intro u hu hnot
  obtain ⟨t, ht, rfl⟩ := List.mem_map.mp hu
  have hne : t.id ≠ tree := fun heq => hnot (heq ▸ htree)
  exact List.mem_map.mpr ⟨t, List.mem_map.mpr ⟨t, ht, if_neg hne⟩, rfl⟩

/-- A batch spares what its body spares. -/
theorem spares_inBatch {α : Type} {body : Forest → α × Forest}
    (hbody : (f.beginBatch tree).Spares touched (body (f.beginBatch tree)).2) :
    f.Spares touched (f.inBatch tree body).2 := by
  refine (spares_of_bench (bench_beginBatch f tree [])).trans (hbody.trans ?_)
  exact spares_of_bench (bench_endBatch tree)

/-- A tree that is planted spares all. -/
theorem spares_plant (f : Forest) (origin : Option String) (proof : ProofTree) :
    f.Spares touched (f.plant origin proof).2 := by
  intro u hu _
  obtain ⟨t, ht, rfl⟩ := List.mem_map.mp hu
  exact List.mem_map.mpr ⟨t, List.mem_append_left _ ht, rfl⟩

theorem spares_plantAll (f : Forest) (proofs : List ProofTree) :
    f.Spares touched (f.plantAll proofs).2 := by
  induction proofs generalizing f with
  | nil => exact spares_refl f
  | cons proof rest ih => exact (spares_plant f none proof).trans (ih _)

/-- A removal spares the other trees. -/
theorem spares_removeTree (htree : touched tree) : f.Spares touched (f.removeTree tree).2 := by
  rw [removeTree]
  split
  · exact spares_refl f
  · intro u hu hnot
    obtain ⟨t, ht, rfl⟩ := List.mem_map.mp hu
    have hne : t.id ≠ tree := fun heq => hnot (heq ▸ htree)
    exact List.mem_map.mpr ⟨t, List.mem_filter.mpr ⟨ht, decide_eq_true hne⟩, rfl⟩

theorem spares_removeTrees {trees : List TreeId} (htrees : ∀ tree ∈ trees, touched tree) :
    f.Spares touched (f.removeTrees trees) := by
  induction trees generalizing f with
  | nil => exact spares_refl f
  | cons tree rest ih =>
      refine (spares_removeTree (htrees tree List.mem_cons_self)).trans (ih ?_)
      exact fun other hother => htrees other (List.mem_cons_of_mem _ hother)

theorem spares_createTree (f : Forest) (s : Sequent) (origin : Option String) :
    f.Spares touched (f.createTree s origin).2 := by
  rw [createTree]
  exact spares_plant { f with slots := f.slots.alloc.2 } origin _

theorem spares_copySubtree (f : Forest) (n : NodeId) : f.Spares touched (f.copySubtree n).2 := by
  rw [copySubtree]
  split
  · exact spares_refl f
  · rename_i proof _
    exact spares_plant { f with slots := (f.slots.copy proof).2 } none _

/-- The trees that are discarded are new ones. -/
theorem mem_of_discarded {u : TreeId × ProofTree} (hlt : u.1.number < f.nextTree)
    (hkept : u ∈ ((f.pruneChildren n).2.bench []).proofs) :
    u ∈ ((f.pruneAndDiscard n).2.bench []).proofs := by
  have hremoved : (f.pruneChildren n).2.Spares (· ∈ f.pruned n)
      ((f.pruneChildren n).2.removeTrees (f.pruned n)) := spares_removeTrees fun _ hmem => hmem
  rw [pruneAndDiscard_eq]
  refine hremoved u hkept fun hmem => ?_
  rw [(numbers_pruneChildren f n).1] at hmem
  obtain ⟨k, hk, hid⟩ := List.mem_map.mp hmem
  rw [← hid] at hlt
  exact Nat.not_lt.mpr (List.mem_range'_1.mp hk).1 hlt

variable (hn : ∀ tree, f.treeOf n = .ok tree → touched tree)
include hn

/-- A rule spares the trees without its node. -/
theorem spares_applyRule (rule : Rule) : f.Spares touched (f.applyRule n rule).2 := by
  rw [applyRule]
  split
  · exact spares_refl f
  · rename_i t proof located
    split
    · split
      · exact spares_refl f
      · exact spares_inBatch (spares_updateTree (f := { f.beginBatch t.id with slots := _ })
          (hn t.id (treeOf_of_locate? located)))
    · exact spares_refl f

theorem spares_setComment (comment : String) : f.Spares touched (f.setComment n comment).2 := by
  rw [setComment]
  split
  · exact spares_refl f
  · rename_i t proof located
    split
    · exact spares_refl f
    · exact spares_inBatch (spares_updateTree (hn t.id (treeOf_of_locate? located)))

theorem spares_applyReasoner (reasoner : Reasoner) (input : Input) (monitor : Monitor) :
    f.Spares touched (f.applyReasoner n reasoner input monitor).forest := by
  have hany : reasoner.Proposes fun _ => True := fun _ _ _ _ _ _ => trivial
  rcases applyReasoner_forest (f := f) hany n input monitor with hsame | ⟨rule, -, happly⟩
  · rw [hsame]
    exact spares_refl f
  · rw [happly]
    exact spares_applyRule hn rule

/-- So does pruning; the pruned trees are new. -/
theorem spares_pruneChildren : f.Spares touched (f.pruneChildren n).2 := by
  rw [pruneChildren]
  split
  · exact spares_refl f
  · rename_i t proof located
    split
    · exact spares_refl f
    · refine spares_inBatch (Spares.trans ?_ (spares_plantAll _ _))
      exact spares_updateTree (hn t.id (treeOf_of_locate? located))

theorem spares_pruneAndDiscard (hlt : ∀ u ∈ (f.bench []).proofs, u.1.number < f.nextTree) :
    f.Spares touched (f.pruneAndDiscard n).2 :=
  fun u hu hnot => mem_of_discarded (hlt u hu) (spares_pruneChildren hn u hu hnot)

/-- A graft touches the tree of its node and the tree that it takes from. -/
theorem spares_graft {source : TreeId} (hsource : touched source) :
    f.Spares touched (f.graft n source).2 := by
  rw [graft]
  split
  · exact spares_refl f
  · exact spares_refl f
  · rename_i t target donor located _
    split
    · exact spares_refl f
    · split
      · have htarget := hn t.id (treeOf_of_locate? located)
        refine spares_inBatch (spares_inBatch ?_)
        exact (spares_updateTree hsource).trans (spares_updateTree htarget)
      · exact spares_refl f

end Spares

/-! ## Replays stay in their tree -/

/-- The tree of a node is the one that has it. -/
theorem treeOf_eq_ok (hf : (f.bench []).Wf allowed) :
    f.treeOf n = .ok tree ↔ ∃ proof, (tree, proof) ∈ (f.bench []).proofs ∧ n ∈ proof.ids := by
  constructor
  · intro htree
    rw [treeOf] at htree
    split at htree
    · rename_i t p hlocate
      cases htree
      obtain ⟨ht, hfind⟩ := (locate?_eq_some hf).mp hlocate
      exact ⟨t.proof, List.mem_map.mpr ⟨t, ht, rfl⟩, ProofTree.mem_ids_of_find? hfind⟩
    · cases htree
  · rintro ⟨proof, hmem, hn⟩
    obtain ⟨t, ht, heq⟩ := List.mem_map.mp hmem
    obtain ⟨rfl, rfl⟩ := Prod.mk.inj heq
    obtain ⟨p, hp⟩ := Option.isSome_iff_exists.mp (ProofTree.isSome_find?.mpr hn)
    exact treeOf_of_find? hf ht hp

/-- The children of a node are in its tree. -/
theorem treeOf_childIds (hf : (f.bench []).Wf allowed) (hn : f.treeOf n = .ok tree) :
    ∀ m ∈ f.childIds n, f.treeOf m = .ok tree := by
  intro m hm
  obtain ⟨p, hp, hchild⟩ := mem_childIds.mp hm
  obtain ⟨c, hc, rfl⟩ := List.mem_map.mp hchild
  obtain ⟨t, ht, hfind⟩ := (node?_eq_some hf).mp hp
  have hids := nodup_ids hf ht
  have hfind' := ProofTree.find?_trans hids hfind
    (ProofTree.find?_child (ProofTree.nodup_ids_find? hids hfind) hc)
  rw [← hn, treeOf_of_find? hf ht hfind, treeOf_of_find? hf ht hfind']

/-- The second forest is in order, only the given tree may have changed, and
    its nodes are still there. -/
structure Confined (tree : TreeId) (f g : Forest) : Prop where
  wf : (g.bench []).Wf fun _ => True
  spares : f.Spares (· = tree) g
  kept : ∀ m, f.treeOf m = .ok tree → g.treeOf m = .ok tree

/-- Doing nothing is confined to any tree. -/
theorem confined_refl (hf : (f.bench []).Wf fun _ => True) : f.Confined tree f :=
  ⟨hf, spares_refl f, fun _ hm => hm⟩

/-- Steps confined to a tree, one after the other. -/
theorem Confined.trans (hfg : f.Confined tree g) (hgh : g.Confined tree h) : f.Confined tree h :=
  ⟨hgh.wf, hfg.spares.trans hgh.spares, fun m hm => hgh.kept m (hfg.kept m hm)⟩

/-- A subtree put in place of one with no more handles. -/
theorem kept_put {q : ProofTree} (hf : (f.bench []).Wf allowed) (hg : (g.bench []).Wf allowed)
    (located : f.locate? n = some (t, p))
    (hput : (g.bench []).proofs = ((f.bench []).put t.id n q).proofs) (hids : p.ids ⊆ q.ids)
    (hm : f.treeOf m = .ok t.id) : g.treeOf m = .ok t.id := by
  obtain ⟨proof, hmem, hm⟩ := (treeOf_eq_ok hf).mp hm
  have hall := Bench.mem_all_of_mem hmem
  have hfind : proof.find? n = some p := by
    obtain ⟨ht, hfind⟩ := (locate?_eq_some hf).mp located
    rw [hf.tree_unique hmem (List.mem_map.mpr ⟨t, ht, rfl⟩)]
    exact hfind
  obtain ⟨rest, hbefore, hafter⟩ :=
    ProofTree.ids_put (hf.settled _ hall) (hf.ids_nodup hall) hfind q
  refine (treeOf_eq_ok hg).mpr ⟨proof.put n q, ?_, hafter.mem_iff.mpr ?_⟩
  · rw [hput]
    exact Bench.mem_put hmem q
  · rcases List.mem_append.mp (hbefore.mem_iff.mp hm) with hm | hm
    · exact List.mem_append_left _ (hids hm)
    · exact List.mem_append_right _ hm

/-- A rule changes nothing, or it applies to an open node. -/
theorem applyRule_cases (f : Forest) (n : NodeId) (rule : Rule) :
    (f.applyRule n rule).2 = f ∨
      ∃ t p sequents skipped, f.locate? n = some (t, p) ∧ p.isOpen = true ∧
        rule.expand p.sequent = some (sequents, skipped) := by
  rw [applyRule]
  split
  · exact .inl rfl
  · rename_i t p located
    split
    · rename_i hopen
      split
      · exact .inl rfl
      · rename_i sequents skipped hexpand
        exact .inr ⟨t, p, sequents, skipped, located, hopen, hexpand⟩
    · exact .inl rfl

/-- A comment changes nothing, or it is another one. -/
theorem setComment_cases (f : Forest) (n : NodeId) (comment : String) :
    (f.setComment n comment).2 = f ∨
      ∃ t p, f.locate? n = some (t, p) ∧ p.comment ≠ comment := by
  rw [setComment]
  split
  · exact .inl rfl
  · rename_i t p located
    split
    · exact .inl rfl
    · rename_i hne
      exact .inr ⟨t, p, located, hne⟩

section Confined

variable (hf : (f.bench []).Wf fun _ => True) (hn : f.treeOf n = .ok tree)
include hf hn

/-- A rule is confined to the tree of its node. -/
theorem confined_applyRule (rule : Rule) : f.Confined tree (f.applyRule n rule).2 := by
  have hmoves : Bench.Moves (fun _ => True) (f.bench []) ((f.applyRule n rule).2.bench []) :=
    applyRule_moves hf trivial n
  have hwf := hf.moves hmoves
  refine ⟨hwf, spares_applyRule (fun _ hu => Except.ok.inj (hu.symm.trans hn)) rule, ?_⟩
  intro m hm
  rcases applyRule_cases f n rule with hsame | ⟨t, p, sequents, skipped, located, hopen, hexpand⟩
  · rw [hsame]
    exact hm
  · obtain rfl : t.id = tree := Except.ok.inj ((treeOf_of_locate? located).symm.trans hn)
    have hproofs := congrArg Bench.proofs (bench_applyRule hf located hopen hexpand).2
    refine kept_put hf hwf located hproofs ?_ hm
    -- the handle of an open node is all that it has
    cases p with
    | openNode node =>
        rw [ProofTree.ids_settled]
        exact List.cons_subset_cons _ (List.nil_subset _)
    | applied node rule skipped children => cases hopen

theorem confined_setComment (comment : String) :
    f.Confined tree (f.setComment n comment).2 := by
  have hwf := hf.moves (setComment_moves hf n comment)
  refine ⟨hwf, spares_setComment (fun _ hu => Except.ok.inj (hu.symm.trans hn)) comment, ?_⟩
  intro m hm
  rcases setComment_cases f n comment with hsame | ⟨t, p, located, hne⟩
  · rw [hsame]
    exact hm
  · obtain rfl : t.id = tree := Except.ok.inj ((treeOf_of_locate? located).symm.trans hn)
    have hproofs := congrArg Bench.proofs (bench_setComment hf located hne).2
    refine kept_put hf hwf located hproofs ?_ hm
    rw [ProofTree.ids_settled]
    cases p <;> exact List.Subset.refl _

theorem confined_applyReasoner (reasoner : Reasoner) (input : Input) (monitor : Monitor) :
    f.Confined tree (f.applyReasoner n reasoner input monitor).forest := by
  have hany : reasoner.Proposes fun _ => True := fun _ _ _ _ _ _ => trivial
  rcases applyReasoner_forest (f := f) hany n input monitor with hsame | ⟨rule, -, happly⟩
  · rw [hsame]
    exact confined_refl hf
  · rw [happly]
    exact confined_applyRule hf hn rule

theorem confined_restoreComment (comment : String) :
    f.Confined tree (f.restoreComment n comment).2 := by
  rw [restoreComment]
  split
  · exact confined_refl hf
  · exact confined_setComment hf hn comment

theorem confined_keepComment (keep : Bool) (comment : String) :
    f.Confined tree (if keep then f.restoreComment n comment else (.ok (), f)).2 := by
  split
  · exact confined_restoreComment hf hn comment
  · exact confined_refl hf

end Confined

section Rebuild

variable {w : Watched} (registry : Registry) (config : ReplayConfig)

theorem confined_rerun (hf : (w.forest.bench []).Wf fun _ => True)
    (hn : w.forest.treeOf n = .ok tree) (rule : Rule) :
    w.forest.Confined tree (rerun registry w n rule).2.forest := by
  rw [rerun]
  dsimp only
  split
  · exact confined_refl hf
  · split
    · exact confined_refl hf
    · split <;> exact confined_applyReasoner hf hn _ _ _

theorem confined_rebuildStep (hf : (w.forest.bench []).Wf fun _ => True)
    (hn : w.forest.treeOf n = .ok tree) (rule : Rule) :
    w.forest.Confined tree (rebuildStep registry config w n rule).2.forest := by
  -- what is tried first stays in the tree, and so does what follows it
  have htry : w.forest.Confined tree
      (if config.reuseFirst then w.forest.tryRule n rule else (.ok false, w.forest)).2 := by
    split
    · rw [tryRule_forest]
      exact confined_applyRule hf hn rule
    · exact confined_refl hf
  rw [rebuildStep]
  split
  · exact confined_refl hf
  · split
    · split <;> rename_i f' hrun <;> rw [hrun] at htry
      · exact htry
      · exact htry
      · split
        · exact htry.trans
            (confined_rerun (w := ⟨f', w.monitor⟩) registry htry.wf (htry.kept n hn) rule)
        · exact htry
    · exact confined_refl hf

/-- A rebuild goes down from its node, and so stays in the tree. -/
theorem confined_rebuildNode (s : Skeleton) (hf : (w.forest.bench []).Wf fun _ => True)
    (hn : w.forest.treeOf n = .ok tree) :
    w.forest.Confined tree (rebuildNode registry config w n s).2.forest := by
  induction s generalizing w n with
  | mk comment rule children ih =>
      -- pairwise, each on the forest the others left
      have hamong : ∀ (w : Watched) nodes, (w.forest.bench []).Wf (fun _ => True) →
          (∀ m ∈ nodes, w.forest.treeOf m = .ok tree) →
          w.forest.Confined tree (rebuildAmong registry config w nodes children).2.forest := by
        intro w nodes hf hnodes
        induction children generalizing w nodes with
        | nil => cases nodes <;> exact confined_refl hf
        | cons s rest ihrest =>
            cases nodes with
            | nil => exact confined_refl hf
            | cons node nodes =>
                have hnode := ih s List.mem_cons_self hf (hnodes node List.mem_cons_self)
                rw [rebuildAmong]
                split <;> rename_i hrun <;> rw [hrun] at hnode
                · exact hnode
                · refine hnode.trans (ihrest (fun c hc => ih c (List.mem_cons_of_mem _ hc)) _ nodes
                    hnode.wf fun m hm => ?_)
                  exact hnode.kept m (hnodes m (List.mem_cons_of_mem _ hm))
      have hcomment := confined_keepComment hf hn config.keepComments comment
      rw [rebuildNode]
      split <;> rename_i f hrun <;> rw [hrun] at hcomment
      · exact hcomment
      · split
        · exact hcomment
        · rename_i rule
          have hstep := confined_rebuildStep (w := ⟨f, w.monitor⟩) registry config hcomment.wf
            (hcomment.kept n hn) rule
          refine hcomment.trans ?_
          split <;> rename_i hrun' <;> rw [hrun'] at hstep
          · exact hstep
          · exact hstep
          · refine hstep.trans (hamong _ _ hstep.wf ?_)
            exact treeOf_childIds hstep.wf (hstep.kept n (hcomment.kept n hn))

end Rebuild

variable (hf : (f.bench []).Wf fun _ => True)
include hf

/-- Inside the batch of a replay the node is where it was. -/
theorem treeOf_beginBatch (htree : f.treeOf n = .ok tree) :
    ((f.beginBatch tree).bench []).Wf (fun _ => True) ∧
      (f.beginBatch tree).treeOf n = .ok tree := by
  have hbench := bench_beginBatch f tree []
  have hwf : ((f.beginBatch tree).bench []).Wf fun _ => True := hbench.symm ▸ hf
  refine ⟨hwf, ?_⟩
  rw [treeOf_eq_ok hwf, hbench, ← treeOf_eq_ok hf]
  exact htree

/-- A rebuild touches the tree of its node only. -/
theorem spares_rebuild {touched : TreeId → Prop} (hn : ∀ tree, f.treeOf n = .ok tree → touched tree)
    (s : Skeleton) (registry : Registry) (monitor : Monitor) (config : ReplayConfig) :
    f.Spares touched (f.rebuild n s registry monitor config).2 := by
  cases htree : f.treeOf n with
  | error e =>
      rw [rebuild, htree]
      exact spares_refl f
  | ok tree =>
      obtain ⟨hwf, hn'⟩ := treeOf_beginBatch hf htree
      have hrun := (confined_rebuildNode (w := ⟨f.beginBatch tree, monitor⟩) registry config s
        hwf hn').spares
      intro u hu hnot
      rw [rebuild_forest htree, bench_endBatch]
      refine hrun u ((bench_beginBatch f tree []).symm ▸ hu) fun heq => hnot ?_
      exact heq ▸ hn tree htree

theorem spares_reuse {touched : TreeId → Prop} (hn : ∀ tree, f.treeOf n = .ok tree → touched tree)
    (s : Skeleton) : f.Spares touched (f.reuse n s).2 := by
  rw [reuse_eq_rebuild]
  exact spares_rebuild hf hn s _ _ _

end Forest

/-! ## All operations -/

namespace Op

open Forest

/-- An operation leaves the trees alone that it is not on. -/
theorem spares {f : Forest} (op : Op) (hf : (f.bench []).Wf fun _ => True) :
    f.Spares (op.On f ·) (op.run f) := by
  -- a graft is on two trees, all other operations on one or on none
  cases op with
  | createTree sequent origin => exact spares_createTree f sequent origin
  | removeTree tree => exact spares_removeTree rfl
  | copySubtree node => exact spares_copySubtree f node
  | applyRule node rule => exact spares_applyRule (fun _ htree => htree) rule
  | applyReasoner node reasoner input monitor =>
      exact spares_applyReasoner (fun _ htree => htree) reasoner input monitor
  | pruneChildren node => exact spares_pruneChildren fun _ htree => htree
  | pruneAndDiscard node => exact spares_pruneAndDiscard (fun _ htree => htree) hf.tree_lt
  | setComment node comment => exact spares_setComment (fun _ htree => htree) comment
  | graft node source => exact spares_graft (fun _ htree => .inl htree) (.inr rfl)
  | reuse node skeleton => exact spares_reuse hf (fun _ htree => htree) skeleton
  | rebuild node skeleton registry monitor config =>
      exact spares_rebuild hf (fun _ htree => htree) skeleton registry monitor config
  | addListener tree => exact spares_of_bench (bench_addListener tree)
  | removeListener tree listener => exact spares_of_bench (bench_removeListener tree listener)
  | beginBatch tree => exact spares_of_bench (bench_beginBatch f tree [])
  | endBatch tree => exact spares_of_bench (bench_endBatch tree)

end Op

namespace Forest

variable {f : Forest} {n : NodeId} {p : ProofTree}

/-! ## Subtrees taken off -/

/-- Planted trees stand behind those that were there, under the handles in the
    answer. -/
theorem plantAll_proofs (f : Forest) (proofs : List ProofTree) :
    (f.plantAll proofs).1.length = proofs.length ∧
      ((f.plantAll proofs).2.bench []).proofs =
        (f.bench []).proofs ++ (f.plantAll proofs).1.zip proofs := by
  induction proofs generalizing f with
  | nil => exact ⟨rfl, (List.append_nil _).symm⟩
  | cons proof rest ih =>
      obtain ⟨hlength, hproofs⟩ := ih (f.plant none proof).2
      refine ⟨congrArg Nat.succ hlength, hproofs.trans ?_⟩
      rw [bench, plant, List.map_append, List.append_assoc]
      rfl

/-- A prune plants the subtrees below the node, in order. -/
theorem pruneChildren_plants (hnode : f.node? n = some p) :
    ∃ trees, (f.pruneChildren n).1 = .ok trees ∧ trees.length = p.children.length ∧
      ∀ u ∈ trees.zip p.children, u ∈ ((f.pruneChildren n).2.bench []).proofs := by
  obtain ⟨⟨t, p⟩, located, rfl⟩ := Option.map_eq_some_iff.mp hnode
  cases hopen : p.isOpen with
  | true =>
      rw [pruneChildren_open located hopen]
      cases p with
      | openNode node => exact ⟨[], rfl, rfl, fun u hu => absurd hu List.not_mem_nil⟩
      | applied node rule skipped children => cases hopen
  | false =>
      obtain ⟨hlength, hproofs⟩ := plantAll_proofs (f.bared t.id n) p.children
      rw [pruneChildren_applied located hopen]
      refine ⟨_, rfl, hlength, fun u hu => ?_⟩
      rw [bench_endBatch, hproofs]
      exact List.mem_append_right _ hu

/-- What is seen of the nodes below a child, before and after it becomes a
    tree of its own. -/
theorem view?_uprooted {allowed : Rule → Prop} {g : Forest} {c : ProofTree} {tree : TreeId}
    (hf : (f.bench []).Wf allowed) (hg : (g.bench []).Wf allowed) (hnode : f.node? n = some p)
    (hc : c ∈ p.children) (hplanted : (tree, c) ∈ (g.bench []).proofs) :
    ∀ m ∈ c.ids, ∃ v, f.view? m = some v ∧
      g.view? m = some { v with
        tree := tree, parent := if m = c.id then none else v.parent } := by
  intro m hm
  obtain ⟨t, ht, hfind⟩ := (node?_eq_some hf).mp hnode
  have hids := nodup_ids hf ht
  -- the child can be looked up from the root of the old tree as well
  have hchild : t.proof.find? c.id = some c := ProofTree.find?_trans hids hfind
    (ProofTree.find?_child (ProofTree.nodup_ids_find? hids hfind) hc)
  obtain ⟨q, hq⟩ := Option.isSome_iff_exists.mp (ProofTree.isSome_find?.mpr hm)
  refine ⟨q.view t.id (t.proof.parent? m), ?_, ?_⟩
  · exact (view?_eq_some hf).mpr
      ⟨t.proof, q, List.mem_map.mpr ⟨t, ht, rfl⟩, ProofTree.find?_trans hids hchild hq, rfl⟩
  · refine (view?_eq_some hg).mpr ⟨c, q, hplanted, hq, ?_⟩
    -- at its top the subtree has lost the parent, below it keeps them
    have hparent : c.parent? m = if m = c.id then none else t.proof.parent? m := by
      split
      · rename_i heq
        rw [heq]
        exact ProofTree.parent?_id (ProofTree.nodup_ids_find? hids hchild)
      · rename_i hne
        exact (ProofTree.parent?_of_find? hids hchild hm hne).symm
    dsimp only
    rw [hparent]
    rfl

/-- **Trees do not touch each other.**  An operation changes nothing that is
    seen of the nodes of other trees.  A prune takes the subtrees off in order,
    and for the nodes there only the tree changes, and the parent at the top.
    A copy changes nothing that is seen of any node. -/
theorem trees_independent (hf : f.Reachable) :
    (∀ op : Op, op.Within (fun _ => True) → ∀ m v, f.view? m = some v → ¬ op.On f v.tree →
      (op.run f).view? m = some v) ∧
    (∀ n p, f.node? n = some p → ∃ trees, (f.pruneChildren n).1 = .ok trees ∧
      trees.length = p.children.length ∧
      ∀ (i : Nat) c tree, p.children[i]? = some c → trees[i]? = some tree →
        ∀ m ∈ c.ids, ∃ v, f.view? m = some v ∧
          (f.pruneChildren n).2.view? m = some { v with
            tree := tree, parent := if m = c.id then none else v.parent }) ∧
    ∀ n m v, f.view? m = some v → (f.copySubtree n).2.view? m = some v := by
  refine ⟨?_, ?_, ?_⟩
  · intro op hop m v hview hoff
    exact (op.spares hf.wf).view? hf.wf (hf.wf.moves (op.moves hf.wf hop)) hview hoff
  -- the tree that is planted for a child holds the nodes of the child
  · intro n p hnode
    obtain ⟨trees, hanswer, hlength, hplants⟩ := pruneChildren_plants hnode
    refine ⟨trees, hanswer, hlength, fun i c tree hc htree => ?_⟩
    have hwf := hf.wf.moves (pruneChildren_moves hf.wf n)
    refine view?_uprooted hf.wf hwf hnode (List.mem_of_getElem? hc) (hplants _ ?_)
    exact List.mem_of_getElem? (List.getElem?_zip_eq_some.mpr ⟨htree, hc⟩)
  · intro n m v hview
    have hspares : f.Spares (fun _ => False) (f.copySubtree n).2 := spares_copySubtree f n
    exact hspares.view? hf.wf (hf.wf.moves (copySubtree_moves n)) hview not_false

/-- A prune in the first of two trees; the second is left alone, and the node
    taken off keeps its comment. -/
theorem moved_independent :
    ∃ v w, moved.view? ⟨1, 1⟩ = some v ∧ v.tree = ⟨2⟩ ∧
      moved.view? ⟨2, 0⟩ = some w ∧ w.parent = some ⟨0, 0⟩ ∧ w.comment = "later" ∧
      (moved.pruneChildren ⟨0, 0⟩).2.view? ⟨1, 1⟩ = some v ∧
      (moved.pruneChildren ⟨0, 0⟩).2.view? ⟨2, 0⟩ = some { w with tree := ⟨3⟩, parent := none } ∧
      (moved.copySubtree ⟨0, 0⟩).2.view? ⟨2, 0⟩ = some w := by
  obtain ⟨hframe, hprune, hcopy⟩ := trees_independent (moved_reachable trivial)
  let v := (moved.view? ⟨1, 1⟩).get (by decide +kernel)
  let w := (moved.view? ⟨2, 0⟩).get (by decide +kernel)
  have hv : moved.view? ⟨1, 1⟩ = some v := (Option.some_get _).symm
  have hw : moved.view? ⟨2, 0⟩ = some w := (Option.some_get _).symm
  have htree : v.tree = ⟨2⟩ := by decide +kernel
  have hparent : w.parent = some ⟨0, 0⟩ := by decide +kernel
  have hcomment : w.comment = "later" := by decide +kernel
  -- the pruned node is in another tree
  have hoff : ¬ (Op.pruneChildren ⟨0, 0⟩).On moved v.tree := by
    intro hon
    have hhome : moved.treeOf ⟨0, 0⟩ = .ok ⟨0⟩ := by decide +kernel
    rw [htree] at hon
    cases hhome.symm.trans hon
  let p := (moved.node? ⟨0, 0⟩).get (by decide +kernel)
  let c := (p.children[0]?).get (by decide +kernel)
  have hp : moved.node? ⟨0, 0⟩ = some p := (Option.some_get _).symm
  have hc : p.children[0]? = some c := (Option.some_get _).symm
  have hid : c.id = ⟨2, 0⟩ := by decide +kernel
  obtain ⟨trees, hanswer, -, hseen⟩ := hprune _ p hp
  obtain rfl : trees = [⟨3⟩] := by
    have hthird : (moved.pruneChildren ⟨0, 0⟩).1 = .ok [⟨3⟩] := by decide +kernel
    exact Except.ok.inj (hanswer.symm.trans hthird)
  refine ⟨v, w, hv, htree, hw, hparent, hcomment, ?_, ?_, hcopy _ _ _ hw⟩
  · exact hframe (.pruneChildren ⟨0, 0⟩) trivial _ v hv hoff
  · obtain ⟨w', hw', hafter⟩ := hseen 0 c ⟨3⟩ hc rfl c.id c.id_mem_ids
    rw [hid] at hw' hafter
    rw [hw] at hw'
    cases hw'
    rw [if_pos rfl] at hafter
    exact hafter

end Forest

end SequentProver
