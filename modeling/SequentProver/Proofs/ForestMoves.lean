import SequentProver.Proofs.Workbench

/-! # The operations of a forest as moves

    Every operation that changes a forest comes down to moves on the
    workbench.  Batches and listeners do not show there.  For the changes
    of one node the workbench after it is given outright. -/

namespace SequentProver.Forest

open Bench (Move Moves)

variable {allowed : Rule → Prop} {f : Forest} {t : Tree} {n : NodeId} {p : ProofTree}
  {loose : List ProofTree}

/-! ## Batches and listeners -/

/-- A change of the books of one tree is not seen on the workbench. -/
theorem bench_updateTree {tree : TreeId} {change : Tree → Tree}
    (hid : ∀ t, (change t).id = t.id) (hproof : ∀ t, (change t).proof = t.proof) :
    (f.updateTree tree change).bench loose = f.bench loose := by
  have hproofs : (f.updateTree tree change).trees.map (fun t => (t.id, t.proof)) =
      f.trees.map fun t => (t.id, t.proof) := by
    rw [updateTree, List.map_map]
    refine List.map_congr_left fun t _ => ?_
    show ((if t.id = tree then change t else t).id, (if t.id = tree then change t else t).proof) = _
    split
    · rw [hid, hproof]
    · rfl
  rw [bench, bench, hproofs]
  rfl

@[simp]
theorem bench_beginBatch (f : Forest) (tree : TreeId) (loose : List ProofTree) :
    (f.beginBatch tree).bench loose = f.bench loose :=
  bench_updateTree (fun _ => rfl) fun _ => rfl

@[simp]
theorem bench_endBatch (tree : TreeId) : (f.endBatch tree).bench loose = f.bench loose := by
  rw [endBatch]
  split
  · rfl
  · dsimp only
    split
    · show ((f.updateTree tree fun t => { t with batches := t.batches - 1 }).updateTree tree
        fun t => { t with records := [] }).bench loose = _
      refine (bench_updateTree ?_ ?_).trans (bench_updateTree ?_ ?_)
      all_goals exact fun _ => rfl
    · exact bench_updateTree (fun _ => rfl) fun _ => rfl

/-- On the workbench a batch is what happens in it. -/
theorem bench_inBatch {α : Type} (tree : TreeId) (body : Forest → α × Forest) :
    (f.inBatch tree body).2.bench loose = (body (f.beginBatch tree)).2.bench loose :=
  bench_endBatch tree

/-- Listeners are not on the workbench. -/
theorem bench_addListener (tree : TreeId) :
    (f.addListener tree).2.bench loose = f.bench loose := by
  rw [addListener]
  split
  · rfl
  · exact bench_updateTree (fun _ => rfl) fun _ => rfl

theorem bench_removeListener (tree : TreeId) (listener : Nat) :
    (f.removeListener tree listener).2.bench loose = f.bench loose := by
  rw [removeListener]
  split
  · rfl
  · exact bench_updateTree (fun _ => rfl) fun _ => rfl

/-! ## Looking up -/

/-- Nodes are found on the workbench as they are in the forest. -/
theorem locate?_bench (f : Forest) (n : NodeId) (loose : List ProofTree) :
    (f.bench loose).locate? n = (f.locate? n).map fun found => (found.1.id, found.2) := by
  rw [Bench.locate?, bench, List.findSome?_map, locate?, List.map_findSome?]
  congr 1
  funext t
  show (t.proof.find? n).map _ = ((t.proof.find? n).map _).map _
  rw [Option.map_map]
  rfl

/-- A node that is found in the forest is found on the workbench. -/
theorem locate?_bench_of (located : f.locate? n = some (t, p)) (loose : List ProofTree) :
    (f.bench loose).locate? n = some (t.id, p) := by
  rw [locate?_bench, located]
  rfl

/-- A tree of the forest is on the workbench under its handle. -/
theorem mem_bench_of_tree? {tree : TreeId} (h : f.tree? tree = some t) (loose : List ProofTree) :
    t.id = tree ∧ (tree, t.proof) ∈ (f.bench loose).proofs := by
  have hid : t.id = tree := by simpa using List.find?_some h
  exact ⟨hid, List.mem_map.mpr ⟨t, List.mem_of_find?_eq_some h, by rw [hid]⟩⟩

/-- The root of a tree is located there. -/
theorem locate?_root {tree : TreeId} (h : (f.bench loose).Wf allowed)
    (htree : f.tree? tree = some t) :
    (f.bench loose).locate? t.proof.id = some (tree, t.proof) :=
  h.locate?_eq (mem_bench_of_tree? htree loose).2 t.proof.find?_id

/-! ## Changing one node -/

/-- An edit of a located node puts the changed subtree in place.  Only the
    trees have to be in order. -/
theorem bench_editNode {b : Bench} {tree : TreeId} {change : ProofTree → ProofTree}
    (loose : List ProofTree) (flags : DeltaFlags) (h : b.Wf allowed)
    (hproofs : (f.bench loose).proofs = b.proofs)
    (located : b.locate? n = some (tree, p)) (hchange : (change p).confidence = p.confidence) :
    (f.editNode tree n flags change).bench loose =
      (f.bench loose).put tree n (change p).settled := by
  obtain ⟨proof, hmem, hfind⟩ := Bench.mem_of_locate? located
  have hput : (f.editNode tree n flags change).trees.map (fun t => (t.id, t.proof)) =
      ((f.bench loose).put tree n (change p).settled).proofs := by
    rw [editNode, updateTree, Bench.put, bench, List.map_map, List.map_map]
    refine List.map_congr_left fun t ht => ?_
    show ((if t.id = tree then _ else t).id, (if t.id = tree then _ else t).proof) =
      if t.id = tree then _ else _
    by_cases hid : t.id = tree
    · -- tree handles are unique, so this is the tree with the node
      have ht : (t.id, t.proof) ∈ b.proofs := hproofs ▸ List.mem_map.mpr ⟨t, ht, rfl⟩
      rw [← h.tree_unique (hid ▸ ht) hmem] at hfind
      have hall := Bench.mem_all_of_mem ht
      obtain ⟨e, he, hresult⟩ :=
        ProofTree.edit_eq_put hchange (h.settled _ hall) (h.ids_nodup hall) hfind
      rw [if_pos hid, if_pos hid, Tree.editNode, he]
      show (t.id, e.result) = (t.id, _)
      rw [hresult]
    · rw [if_neg hid, if_neg hid]
  rw [bench, hput]
  rfl

/-- What a rule that applies does: it puts the node with its rule and one
    open child per antecedent in place. -/
theorem bench_applyRule {rule : Rule} {sequents : List Sequent} {skipped : SkippedActions}
    (h : (f.bench []).Wf allowed) (located : f.locate? n = some (t, p)) (hopen : p.isOpen = true)
    (hexpand : rule.expand p.sequent = some (sequents, skipped)) :
    (f.applyRule n rule).1 = .ok () ∧
      (f.applyRule n rule).2.bench [] =
        { (f.bench []).put t.id n
            (ProofTree.applied p.node rule skipped (f.slots.openNodes sequents).1).settled with
          slots := (f.slots.openNodes sequents).2 } := by
  have hrun : f.applyRule n rule = f.inBatch t.id fun f =>
      (.ok (), { f with slots := (f.slots.openNodes sequents).2 }.editNode t.id n ruleFlags
        fun p => .applied p.node rule skipped (f.slots.openNodes sequents).1) := by
    rw [applyRule, located]
    dsimp only
    rw [if_pos hopen, hexpand]
  rw [hrun]
  refine ⟨rfl, (bench_inBatch _ _).trans ?_⟩
  -- the batch and the books are no part of the bench
  have hproofs := congrArg Bench.proofs (bench_beginBatch f t.id [])
  refine (bench_editNode (f := { f.beginBatch t.id with
    slots := (f.slots.openNodes sequents).2 }) [] ruleFlags h hproofs
    (locate?_bench_of located _) ?_).trans ?_
  · rfl
  · show Bench.put { (f.beginBatch t.id).bench [] with slots := _ } _ _ _ = _
    rw [bench_beginBatch]
    rfl

/-- What a comment does. -/
theorem bench_setComment {comment : String} (h : (f.bench []).Wf allowed)
    (located : f.locate? n = some (t, p)) (hne : p.comment ≠ comment) :
    (f.setComment n comment).1 = .ok () ∧
      (f.setComment n comment).2.bench [] = (f.bench []).put t.id n
        (p.mapNode fun node => { node with comment := comment }).settled := by
  have hrun : f.setComment n comment = f.inBatch t.id fun f =>
      (.ok (), f.editNode t.id n .comment fun p =>
        p.mapNode fun node => { node with comment := comment }) := by
    rw [setComment, located]
    dsimp only
    rw [if_neg hne]
  rw [hrun]
  refine ⟨rfl, (bench_inBatch _ _).trans ?_⟩
  have hproofs := congrArg Bench.proofs (bench_beginBatch f t.id [])
  refine (bench_editNode [] .comment h hproofs (locate?_bench_of located _) ?_).trans ?_
  · rw [ProofTree.confidence, ProofTree.node_mapNode]
    rfl
  · rw [bench_beginBatch]

/-! ## Planting and removing -/

theorem plant_moves (origin : Option String) :
    Moves allowed (f.bench (p :: loose)) ((f.plant origin p).2.bench loose) := by
  have hplant : (f.plant origin p).2.bench loose = { f.bench loose with
      proofs := (f.bench loose).proofs ++ [(⟨f.nextTree⟩, p)], nextTree := f.nextTree + 1 } := by
    rw [plant, bench, List.map_append]
    rfl
  rw [hplant]
  exact .single (.planting (f.bench (p :: loose)) rfl)

/-- Loose subtrees are planted one after the other. -/
theorem plantAll_moves (ps : List ProofTree) :
    Moves allowed (f.bench (ps ++ loose)) ((f.plantAll ps).2.bench loose) := by
  induction ps generalizing f with
  | nil => exact .refl
  | cons p rest ih => exact (plant_moves none).trans ih

/-- A new tree: a node is opened and planted. -/
theorem createTree_moves {s : Sequent} (hs : s.WellTyped) (origin : Option String) :
    Moves allowed (f.bench []) ((f.createTree s origin).2.bench []) := by
  refine .head (.opening (f.bench []) [s] fun u hu => ?_) ?_
  · rw [List.mem_singleton] at hu
    exact hu ▸ hs
  · exact plant_moves (f := { f with slots := f.slots.alloc.2 }) origin

/-- A tree that is removed: it is uprooted and dropped. -/
theorem removeTree_moves (tree : TreeId) :
    Moves allowed (f.bench []) ((f.removeTree tree).2.bench []) := by
  rw [removeTree]
  split
  · exact .refl
  · rename_i t htree
    obtain ⟨hid, hmem⟩ := mem_bench_of_tree? htree []
    refine .head (.uprooting _ hmem) (.head (.discarding _ rfl) ?_)
    have hfilter : (f.bench []).proofs.filter (fun u => u.1 ≠ tree) =
        (f.trees.filter fun t => t.id ≠ tree).map fun t => (t.id, t.proof) := by
      rw [bench, List.filter_map]
      rfl
    rw [hfilter]
    exact .refl

/-- Trees are removed one after the other. -/
theorem removeTrees_moves (trees : List TreeId) :
    Moves allowed (f.bench []) ((f.removeTrees trees).bench []) := by
  induction trees generalizing f with
  | nil => exact .refl
  | cons tree rest ih => exact (removeTree_moves tree).trans ih

/-- A copy: the subtree is copied and planted. -/
theorem copySubtree_moves (n : NodeId) :
    Moves allowed (f.bench []) ((f.copySubtree n).2.bench []) := by
  rw [copySubtree]
  split
  · exact .refl
  · rename_i p hnode
    obtain ⟨⟨t, p'⟩, located, hp⟩ := Option.map_eq_some_iff.mp hnode
    cases hp
    refine .head (.copying (f.bench []) (locate?_bench_of located _)) ?_
    exact plant_moves (f := { f with slots := (f.slots.copy p').2 }) none

/-! ## Rules and comments -/

/-- A rule that applies: its children are opened and attached. -/
theorem applyRule_moves {rule : Rule} (h : (f.bench []).Wf allowed) (hrule : allowed rule)
    (n : NodeId) : Moves allowed (f.bench []) ((f.applyRule n rule).2.bench []) := by
  cases hlocate : f.locate? n with
  | none =>
      rw [applyRule, hlocate]
  | some found =>
      obtain ⟨t, p⟩ := found
      by_cases hopen : p.isOpen = true
      -- a rule that fits is two moves: its children are opened, then attached
      · cases hexpand : rule.expand p.sequent with
        | none =>
            rw [applyRule, hlocate]
            dsimp only
            rw [if_pos hopen, hexpand]
        | some expanded =>
            obtain ⟨sequents, skipped⟩ := expanded
            rw [(bench_applyRule h hlocate hopen hexpand).2]
            have located := locate?_bench_of hlocate []
            have hwell := (h.of_locate? located).2.top.wellTyped
            refine .head (.opening _ sequents (Rule.wellTyped_expand hwell hexpand)) ?_
            refine .single (.attaching _ located hopen rfl hrule (Sequent.sameAs_refl _) ?_)
            rw [Slots.openNodes_sequents]
            exact hexpand
      · rw [applyRule, hlocate]
        dsimp only
        rw [if_neg hopen]

/-- A comment: the node is put back with it. -/
theorem setComment_moves (h : (f.bench []).Wf allowed) (n : NodeId) (comment : String) :
    Moves allowed (f.bench []) ((f.setComment n comment).2.bench []) := by
  cases hlocate : f.locate? n with
  | none =>
      rw [setComment, hlocate]
  | some found =>
      obtain ⟨t, p⟩ := found
      by_cases hsame : p.comment = comment
      · rw [setComment, hlocate]
        dsimp only
        rw [if_pos hsame]
      · rw [(bench_setComment h hlocate hsame).2]
        exact .single (.commenting _ comment (locate?_bench_of hlocate _))

/-! ## Subtrees taken off and put back -/

/-- On an open node a prune does nothing. -/
theorem pruneChildren_open (located : f.locate? n = some (t, p)) (hopen : p.isOpen = true) :
    f.pruneChildren n = (.ok [], f) := by
  rw [pruneChildren, located]
  exact if_pos hopen

/-- In a batch, with the rule off a node and the subtrees below not planted
    yet. -/
def bared (f : Forest) (tree : TreeId) (n : NodeId) : Forest :=
  (f.beginBatch tree).editNode tree n ruleFlags ProofTree.withoutRule

/-- A node without its rule is put in place of the node. -/
theorem bench_bared (loose : List ProofTree) (h : (f.bench []).Wf allowed)
    (located : f.locate? n = some (t, p)) :
    (f.bared t.id n).bench loose = (f.bench loose).put t.id n p.withoutRule.settled := by
  have hproofs := congrArg Bench.proofs (bench_beginBatch f t.id [])
  rw [← bench_beginBatch f t.id loose]
  exact bench_editNode loose ruleFlags h hproofs (locate?_bench_of located []) rfl

/-- On a node with a rule it plants the subtrees below. -/
theorem pruneChildren_applied (located : f.locate? n = some (t, p)) (happlied : p.isOpen = false) :
    f.pruneChildren n = (.ok ((f.bared t.id n).plantAll p.children).1,
      ((f.bared t.id n).plantAll p.children).2.endBatch t.id) := by
  rw [pruneChildren, located]
  exact if_neg (Bool.eq_false_iff.mp happlied)

/-- Pruning: the children are detached and planted. -/
theorem pruneChildren_moves (h : (f.bench []).Wf allowed) (n : NodeId) :
    Moves allowed (f.bench []) ((f.pruneChildren n).2.bench []) := by
  cases hlocate : f.locate? n with
  | none => rw [pruneChildren, hlocate]
  | some found =>
      obtain ⟨t, p⟩ := found
      cases hopen : p.isOpen with
      | true => rw [pruneChildren_open hlocate hopen]
      | false =>
          rw [pruneChildren_applied hlocate hopen, bench_endBatch]
          refine .trans (.single (.detaching _ (locate?_bench_of hlocate []))) ?_
          have hplanted : Moves allowed ((f.bared t.id n).bench (p.children ++ [])) _ :=
            plantAll_moves p.children
          rw [bench_bared _ h hlocate] at hplanted
          exact hplanted

/-- Pruning and removing what was pruned. -/
theorem pruneAndDiscard_moves (h : (f.bench []).Wf allowed) (n : NodeId) :
    Moves allowed (f.bench []) ((f.pruneAndDiscard n).2.bench []) := by
  have hprune := pruneChildren_moves h n
  rw [pruneAndDiscard]
  split
  · rename_i hrun
    rw [hrun] at hprune
    exact hprune
  · rename_i trees f' hrun
    rw [hrun] at hprune
    exact hprune.trans (removeTrees_moves trees)

/-- A graft changes nothing, or it moves the rule at the root of the source to
    an open node of another tree. -/
theorem graft_cases (f : Forest) (n : NodeId) (source : TreeId) :
    (f.graft n source).2 = f ∨
      ∃ t p donor root rule skipped children, f.locate? n = some (t, p) ∧
        f.tree? source = some donor ∧ donor.proof = .applied root rule skipped children ∧
        p.isOpen = true ∧ t.id ≠ source ∧ p.sequent.sameAs root.sequent = true := by
  rw [graft]
  split
  · exact .inl rfl
  · exact .inl rfl
  · rename_i t p donor located htree
    split
    · exact .inl rfl
    · rename_i root rule skipped children hdonor
      split
      · rename_i hcond
        simp only [Bool.and_eq_true, decide_eq_true_eq] at hcond
        exact .inr ⟨t, p, donor, root, rule, skipped, children, located, htree, hdonor, hcond.1.1,
          hcond.1.2, hcond.2⟩
      · exact .inl rfl

/-- What a graft does: the source gives up the rule at its root, and the node
    in another tree gets it with the subtrees below. -/
theorem bench_graft {source : TreeId} {donor : Tree} {root : Node} {rule : Rule}
    {skipped : SkippedActions} {children : List ProofTree} (h : (f.bench []).Wf allowed)
    (located : f.locate? n = some (t, p)) (htree : f.tree? source = some donor)
    (hdonor : donor.proof = .applied root rule skipped children) (hopen : p.isOpen = true)
    (hne : t.id ≠ source) (hsame : p.sequent.sameAs root.sequent = true) :
    (f.graft n source).1 = .ok true ∧
      (f.graft n source).2.bench [] =
        ((f.bench []).put source root.id (ProofTree.openNode root).settled).put t.id n
          (ProofTree.applied p.node rule skipped children).settled := by
  have hrun : f.graft n source = f.inBatch t.id fun f => f.inBatch source fun f =>
      (.ok true, (f.editNode source root.id ruleFlags ProofTree.withoutRule).editNode t.id n
        ruleFlags fun p => .applied p.node rule skipped children) := by
    rw [graft, located, htree]
    dsimp only
    rw [hdonor]
    dsimp only
    rw [hopen, decide_eq_true hne, hsame]
    rfl
  rw [hrun]
  refine ⟨rfl, (bench_inBatch _ _).trans ((bench_inBatch _ _).trans ?_)⟩
  -- nor are the two batches
  have hbench : ∀ loose, ((f.beginBatch t.id).beginBatch source).bench loose = f.bench loose :=
    fun _ => (bench_beginBatch _ _ _).trans (bench_beginBatch _ _ _)
  have hroot := locate?_root h htree
  rw [hdonor] at hroot
  have hemptied : (((f.beginBatch t.id).beginBatch source).editNode source root.id ruleFlags
      ProofTree.withoutRule).bench [] =
      (f.bench []).put source root.id (ProofTree.openNode root).settled := by
    rw [← hbench []]
    exact bench_editNode [] ruleFlags h (congrArg Bench.proofs (hbench [])) hroot rfl
  refine (bench_editNode [] ruleFlags (h.detaching hroot) ?_
    (h.locate?_detached hroot (locate?_bench_of located []) hne) rfl).trans ?_
  · rw [hemptied]
    rfl
  · rw [hemptied]

/-- Grafting: the children of one node are detached and attached to another. -/
theorem graft_moves (h : (f.bench []).Wf allowed) (n : NodeId) (source : TreeId) :
    Moves allowed (f.bench []) ((f.graft n source).2.bench []) := by
  rcases graft_cases f n source with hsame | ⟨t, p, donor, root, rule, skipped, children, located,
    htree, hdonor, hopen, hne, hsame⟩
  · rw [hsame]
  · rw [(bench_graft h located htree hdonor hopen hne hsame).2]
    have hroot := locate?_root h htree
    have hjust := (h.of_locate? hroot).2.top
    rw [hdonor] at hroot hjust
    obtain ⟨hrule, s, hs, hexpand⟩ := hjust.step rule rfl
    refine .head (.detaching _ hroot) (.single ?_)
    exact .attaching _ (h.locate?_detached hroot (locate?_bench_of located []) hne) hopen rfl hrule
      (Sequent.sameAs_trans hs hsame) hexpand

end SequentProver.Forest
