import SequentProver.Proofs.Recording
import SequentProver.Proofs.TreeIndependence

/-! # Copies put back in place

    A proof can be kept as a copy while it is taken off its node, and put back
    from there.  What stands at the node afterwards has other handles below,
    and is otherwise the proof that stood there before.

    Route:
    1. `forgetHandles`, what a proof is but for its handles: two proofs that
       are the same then agree and have the same dependencies;
    2. a copy is the same but for handles;
    3. a subtree put in place of one that is the same but for handles: so is
       every subtree around it, and every level stays;
    4. `AtOrAbove`, the nodes that parents lead to;
    5. what a copy, a prune and a graft leave in each tree, one after the
       other. -/

namespace SequentProver

namespace ProofTree

variable {t u p q a : ProofTree} {n m : NodeId}

/-! ## Proofs without their handles -/

mutual

/-- The proof with one handle at every node. -/
def forgetHandles : ProofTree → ProofTree
  | .openNode node => .openNode { node with id := ⟨0, 0⟩ }
  | .applied node rule skipped children =>
    .applied { node with id := ⟨0, 0⟩ } rule skipped (forgetHandlesAmong children)

/-- Siblings without their handles. -/
def forgetHandlesAmong : List ProofTree → List ProofTree
  | [] => []
  | t :: rest => forgetHandles t :: forgetHandlesAmong rest

end

/-- Handles are forgotten sibling by sibling. -/
@[simp]
theorem forgetHandlesAmong_eq (ts : List ProofTree) :
    forgetHandlesAmong ts = ts.map forgetHandles := by
  induction ts with
  | nil => rfl
  | cons t rest ih => rw [forgetHandlesAmong, ih, List.map_cons]

@[simp]
theorem sequent_forgetHandles (t : ProofTree) : t.forgetHandles.sequent = t.sequent := by
  cases t <;> rfl

@[simp]
theorem confidence_forgetHandles (t : ProofTree) :
    t.forgetHandles.confidence = t.confidence := by
  cases t <;> rfl

/-- Levels do not depend on handles. -/
@[simp]
theorem level_forgetHandles (t : ProofTree) : t.forgetHandles.level = t.level := by
  cases t with
  | openNode node => rfl
  | applied node rule skipped children =>
      rw [forgetHandles, level_applied, level_applied, forgetHandlesAmong_eq, List.map_map]
      congr 1
      exact List.map_congr_left fun c _ => confidence_forgetHandles c

@[simp]
theorem dependencies_forgetHandles (t : ProofTree) :
    t.forgetHandles.dependencies = t.dependencies := by
  induction t with
  | openNode node => rfl
  | applied node rule skipped children ih =>
      rw [forgetHandles, dependencies, dependencies, dependenciesAmong_eq, dependenciesAmong_eq,
        forgetHandlesAmong_eq, List.map_map]
      congr 1
      refine List.map_congr_left fun c hc => ?_
      show (c.forgetHandles.dependencies, c.forgetHandles.sequent.env) = _
      rw [ih c hc, sequent_forgetHandles]

/-- A node agrees with every node that differs in the handle only. -/
theorem nodeAgrees_of_eq {node node' : Node}
    (h : { node with id := ⟨0, 0⟩ } = ({ node' with id := ⟨0, 0⟩ } : Node)) :
    nodeAgrees node node' = true := by
  injection h with _ hsequent hcomment hconfidence
  rw [nodeAgrees, Bool.and_eq_true, Bool.and_eq_true, hsequent]
  exact ⟨⟨Sequent.sameAs_refl _, decide_eq_true hcomment⟩, decide_eq_true hconfidence⟩

/-- Proofs that are the same but for handles agree. -/
theorem agrees_of_forgetHandles (h : t.forgetHandles = u.forgetHandles) : t.agrees u = true := by
  induction t generalizing u with
  | openNode node =>
      cases u with
      | openNode node' =>
          injection h with hnode
          exact nodeAgrees_of_eq hnode
      | applied _ _ _ _ => cases h
  | applied node rule skipped children ih =>
      cases u with
      | openNode _ => cases h
      | applied node' rule' skipped' children' =>
          rw [forgetHandles, forgetHandles, forgetHandlesAmong_eq, forgetHandlesAmong_eq] at h
          injection h with hnode hrule _ hchildren
          rw [agrees, Bool.and_eq_true, Bool.and_eq_true, agreesAmong_iff]
          refine ⟨⟨nodeAgrees_of_eq hnode, decide_eq_true hrule⟩, ?_⟩
          -- child by child, along both lists
          clear hnode
          induction children generalizing children' with
          | nil =>
              cases children' with
              | nil => exact .nil
              | cons _ _ => cases hchildren
          | cons c rest ihrest =>
              cases children' with
              | nil => cases hchildren
              | cons c' rest' =>
                  obtain ⟨hc, hrest⟩ := List.cons.inj hchildren
                  refine .cons (ih c List.mem_cons_self hc) (ihrest ?_ rest' hrest)
                  exact fun d hd => ih d (List.mem_cons_of_mem _ hd)

/-- A proof that is the same as one at its level is at its level. -/
theorem settled_of_forgetHandles (h : t.forgetHandles = u.forgetHandles)
    (hu : u.confidence = u.level) : t.settled = t := by
  refine settled_eq ?_
  rw [← confidence_forgetHandles t, ← level_forgetHandles t, h, confidence_forgetHandles,
    level_forgetHandles, hu]

end ProofTree

/-- A copy is the same but for its handles. -/
theorem Slots.forgetHandles_copy (s : Slots) (t : ProofTree) :
    (s.copy t).1.forgetHandles = t.forgetHandles := by
  induction t generalizing s with
  | openNode node => rfl
  | applied node rule skipped children ih =>
      have hamong : ∀ s : Slots, (s.copyAmong children).1.map ProofTree.forgetHandles =
          children.map ProofTree.forgetHandles := by
        induction children with
        | nil => exact fun _ => rfl
        | cons c rest ihrest =>
            intro s
            rw [copyAmong, List.map_cons, List.map_cons, ih c List.mem_cons_self s,
              ihrest (fun d hd => ih d (List.mem_cons_of_mem _ hd)) (s.copy c).2]
      rw [Slots.copy, ProofTree.forgetHandles, ProofTree.forgetHandles,
        ProofTree.forgetHandlesAmong_eq, ProofTree.forgetHandlesAmong_eq, hamong]

namespace ProofTree

variable {t u p q a : ProofTree} {n m : NodeId}

/-! ## Putting the same in place -/

/-- With a subtree in place that is the same as the one before, so is the
    whole tree: no level above moves. -/
theorem forgetHandles_put (ht : t.Settled) (hids : t.ids.Nodup) (hfind : t.find? n = some p)
    (hq : q.forgetHandles = p.forgetHandles) : (t.put n q).forgetHandles = t.forgetHandles := by
  suffices h : t.Settled → (t.put n q).forgetHandles = t.forgetHandles from h ht
  refine put_induct (motive := fun t t' => t.Settled → t'.forgetHandles = t.forgetHandles)
    (fun _ => hq) ?_ ht hids hfind
  intro node rule skipped before c after _ _ _ ih hsettled
  have hc := ih (hsettled.child c (List.mem_append_right _ List.mem_cons_self))
  have hsame : (ProofTree.applied node rule skipped (before ++ c.put n q :: after)).forgetHandles =
      (ProofTree.applied node rule skipped (before ++ c :: after)).forgetHandles := by
    simp only [forgetHandles, forgetHandlesAmong_eq, List.map_append, List.map_cons, hc]
  rw [settled_of_forgetHandles hsame hsettled.top]
  exact hsame

/-- The handle at the top stays, if the subtree keeps its own. -/
theorem id_put (hq : q.id = n) (t : ProofTree) : (t.put n q).id = t.id := by
  by_cases hid : t.id = n
  · rw [put_of_id hid, hq, hid]
  · cases t with
    | openNode node => exact congrArg id (if_neg hid)
    | applied node rule skipped children =>
        exact (congrArg id (put_applied hid)).trans (id_settled _)

/-- Below the top, the subtree goes into the child that has its place. -/
theorem children_put (hid : t.id ≠ n) : (t.put n q).children = t.children.map (put n · q) := by
  cases t with
  | openNode node => exact congrArg ProofTree.children (if_neg hid)
  | applied node rule skipped children =>
      exact (congrArg ProofTree.children (put_applied hid)).trans (children_settled _)

/-- A subtree that has the node changes along with the whole tree. -/
theorem find?_put_above (hids : t.ids.Nodup) (hnew : (t.put n q).ids.Nodup) (hq : q.id = n)
    (hfind : t.find? m = some a) (hn : n ∈ a.ids) : (t.put n q).find? m = some (a.put n q) := by
  induction t using children_induct with
  | step t ih =>
      rw [find?_eq] at hfind
      split at hfind
      · rename_i hid
        cases hfind
        rw [find?_eq, id_put hq, if_pos hid]
      · obtain ⟨c, hc, hfound⟩ := List.exists_of_findSome?_eq_some hfind
        -- the node is below the top, in this child
        have hmem : n ∈ c.ids := by
          obtain ⟨p, hp⟩ := Option.isSome_iff_exists.mp (isSome_find?.mpr hn)
          exact mem_ids_of_find? (find?_trans (nodup_ids_child hids hc) hfound hp)
        have hid : t.id ≠ n := by
          rintro rfl
          rw [ids_eq, List.nodup_cons] at hids
          exact hids.1 (List.mem_flatMap.mpr ⟨c, hc, hmem⟩)
        have hput : c.put n q ∈ (t.put n q).children := by
          rw [children_put hid]
          exact List.mem_map.mpr ⟨c, hc, rfl⟩
        exact find?_of_child hnew hput
          (ih c hc (nodup_ids_child hids hc) (nodup_ids_child hnew hput) hfound)

end ProofTree

namespace Forest

variable {allowed : Rule → Prop} {f : Forest} {tree source : TreeId} {t : Tree} {n m : NodeId}
  {p proof : ProofTree}

/-! ## Nodes above a node -/

/-- The node `m` is `n`, or parents lead from `n` to it. -/
def AtOrAbove (f : Forest) (n m : NodeId) : Prop :=
  Relation.ReflTransGen (fun a b => f.parent? a = some b) n m

/-- Parents stay in the tree and lead to subtrees that have the node. -/
theorem AtOrAbove.find? (habove : f.AtOrAbove n m) (h : (f.bench []).Wf allowed)
    (ht : t ∈ f.trees) (hfind : t.proof.find? n = some p) :
    ∃ a, t.proof.find? m = some a ∧ a.find? n = some p := by
  have hids := nodup_ids h ht
  induction habove with
  | refl =>
      refine ⟨p, hfind, ?_⟩
      rw [← ProofTree.id_of_find? hfind]
      exact p.find?_id
  | @tail m parent _ hparent ih =>
      obtain ⟨a, ha, hbelow⟩ := ih
      rw [parent?_eq h ht (ProofTree.mem_ids_of_find? ha)] at hparent
      obtain ⟨b, hb, hchild⟩ := (ProofTree.parent?_eq_some hids).mp hparent
      obtain ⟨c, hc, rfl⟩ := List.mem_map.mp hchild
      have hbids := ProofTree.nodup_ids_find? hids hb
      -- the child is the subtree that the way led to so far
      obtain rfl : c = a := Option.some.inj
        ((ProofTree.find?_trans hids hb (ProofTree.find?_child hbids hc)).symm.trans ha)
      exact ⟨b, hb, ProofTree.find?_of_child hbids hc hbelow⟩

/-! ## One operation after the other -/

/-- A copy comes last, under the next tree handle. -/
theorem copySubtree_appends (hnode : f.node? n = some p) :
    (f.copySubtree n).1 = .ok ⟨f.nextTree⟩ ∧
      (f.copySubtree n).2.nextTree = f.nextTree + 1 ∧
      ((f.copySubtree n).2.bench []).proofs =
        (f.bench []).proofs ++ [(⟨f.nextTree⟩, (f.slots.copy p).1)] := by
  rw [copySubtree, hnode]
  refine ⟨rfl, rfl, ?_⟩
  show List.map _ (f.trees ++ [_]) = _
  rw [List.map_append]
  rfl

/-- Two copies stand behind the trees that were there. -/
theorem copySubtree_twice (h : (f.bench []).Wf allowed) (hnode : f.node? n = some p) :
    let second := (f.copySubtree n).2.copySubtree n
    (f.copySubtree n).1 = .ok ⟨f.nextTree⟩ ∧ second.1 = .ok ⟨f.nextTree + 1⟩ ∧
      (second.2.bench []).Wf allowed ∧ ∃ copy copy' : ProofTree,
        copy.forgetHandles = p.forgetHandles ∧ copy'.forgetHandles = p.forgetHandles ∧
        (second.2.bench []).proofs =
          (f.bench []).proofs ++ [(⟨f.nextTree⟩, copy), (⟨f.nextTree + 1⟩, copy')] := by
  intro second
  obtain ⟨hk, hnext, hproofs⟩ := copySubtree_appends hnode
  have hwf := h.moves (copySubtree_moves n)
  obtain ⟨hc, -, hproofs'⟩ := copySubtree_appends (node?_of_appended h hwf hproofs hnode)
  rw [hnext] at hc hproofs'
  rw [hproofs, List.append_assoc] at hproofs'
  exact ⟨hk, hc, hwf.moves (copySubtree_moves n), _, _, Slots.forgetHandles_copy _ p,
    Slots.forgetHandles_copy _ p, hproofs'⟩

/-- A prune with the subtrees discarded leaves the node bare. -/
theorem pruneAndDiscard_bares (h : (f.bench []).Wf allowed)
    (hmem : (tree, proof) ∈ (f.bench []).proofs) (hfind : proof.find? n = some p)
    (happlied : p.isOpen = false) :
    (f.pruneAndDiscard n).1 = .ok () ∧
      (tree, proof.put n p.withoutRule.settled) ∈ ((f.pruneAndDiscard n).2.bench []).proofs := by
  obtain ⟨t, rfl, located⟩ := exists_locate? (h.locate?_eq hmem hfind)
  have hlt : t.id.number < f.nextTree := h.tree_lt _ hmem
  have hrun := pruneChildren_applied located happlied
  constructor
  · rw [pruneAndDiscard, hrun]
  · refine mem_of_discarded hlt ?_
    rw [hrun, bench_endBatch, (plantAll_proofs (f.bared t.id n) p.children).2,
      bench_bared [] h located]
    exact List.mem_append_left _ (Bench.mem_put hmem _)

/-- A graft moves the rule from the root of one tree to an open node of
    another. -/
theorem graft_moves_rule {root : Node} {rule : Rule} {skipped : SkippedActions}
    {children : List ProofTree} (h : (f.bench []).Wf allowed)
    (hmem : (tree, proof) ∈ (f.bench []).proofs) (hfind : proof.find? n = some p)
    (hsource : (source, .applied root rule skipped children) ∈ (f.bench []).proofs)
    (hopen : p.isOpen = true) (hne : tree ≠ source)
    (hsame : p.sequent.sameAs root.sequent = true) :
    (f.graft n source).1 = .ok true ∧
      (tree, proof.put n (ProofTree.applied p.node rule skipped children).settled) ∈
        ((f.graft n source).2.bench []).proofs ∧
      (source, (ProofTree.openNode root).settled) ∈ ((f.graft n source).2.bench []).proofs := by
  obtain ⟨t, rfl, located⟩ := exists_locate? (h.locate?_eq hmem hfind)
  obtain ⟨donor, htree, hdonor⟩ := exists_tree? h hsource
  obtain ⟨hanswer, hbench⟩ := bench_graft h located htree hdonor hopen hne hsame
  rw [hbench]
  -- the two trees differ, so neither edit undoes the other
  refine ⟨hanswer, Bench.mem_put (Bench.mem_put_of_ne hmem hne _) _, ?_⟩
  have hroot : (ProofTree.applied root rule skipped children).put root.id
      (ProofTree.openNode root).settled = (ProofTree.openNode root).settled :=
    ProofTree.put_of_id rfl
  have hemptied := Bench.mem_put (n := root.id) hsource (ProofTree.openNode root).settled
  rw [hroot] at hemptied
  exact Bench.mem_put_of_ne hemptied hne.symm _

/-- A prune and a graft from a tree that is the same as the proof at the node:
    the node has its proof again, and only the two trees may have changed. -/
theorem graft_from_copy {copy : ProofTree} (h : (f.bench []).Wf allowed)
    (hmem : (tree, proof) ∈ (f.bench []).proofs) (hfind : proof.find? n = some p)
    (happlied : p.isOpen = false) (hcopy : (source, copy) ∈ (f.bench []).proofs)
    (hne : tree ≠ source) (hsame : copy.forgetHandles = p.forgetHandles) :
    let pruned := f.pruneAndDiscard n
    let grafted := pruned.2.graft n source
    pruned.1 = .ok () ∧ grafted.1 = .ok true ∧ (grafted.2.bench []).Wf allowed ∧
      (∃ q, q.id = n ∧ q.forgetHandles = p.forgetHandles ∧
        (tree, proof.put n q) ∈ (grafted.2.bench []).proofs) ∧
      (source, copy.withoutRule.settled) ∈ (grafted.2.bench []).proofs ∧
      f.Spares (fun other => other = tree ∨ other = source) grafted.2 := by
  intro pruned grafted
  have hall := Bench.mem_all_of_mem hmem
  have hsettled := h.settled _ hall
  have hid := ProofTree.id_of_find? hfind
  have htree := (treeOf_eq_ok h).mpr ⟨proof, hmem, ProofTree.mem_ids_of_find? hfind⟩
  obtain ⟨hpruned, hbare⟩ := pruneAndDiscard_bares h hmem hfind happlied
  have hwf : (pruned.2.bench []).Wf allowed := h.moves (pruneAndDiscard_moves h n)
  -- the copy is in another tree than the node, so the prune leaves it there
  have hspares : f.Spares (· = tree) pruned.2 :=
    spares_pruneAndDiscard (fun other hother => Except.ok.inj (hother.symm.trans htree)) h.tree_lt
  have hkept := hspares _ hcopy hne.symm
  cases p with
  | openNode node => cases happlied
  | applied node rule skipped children =>
      cases copy with
      | openNode root => cases hsame
      | applied root rule' skipped' kids =>
          obtain ⟨hnode, rfl, rfl, hkids⟩ := ProofTree.applied.inj hsame
          have hsequent : node.sequent = root.sequent := (congrArg Node.sequent hnode).symm
          have hbareId : (ProofTree.openNode node).settled.id = n :=
            (ProofTree.id_settled _).trans hid
          have hfound := ProofTree.find?_put hsettled (h.ids_nodup hall) hfind hbareId
          obtain ⟨hgrafted, hproof, hemptied⟩ := graft_moves_rule hwf hbare hfound hkept rfl hne
            (hsequent ▸ Sequent.sameAs_refl _)
          let q := ProofTree.applied node rule' skipped' kids
          have hq : q.forgetHandles =
              (ProofTree.applied node rule' skipped' children).forgetHandles :=
            congrArg (ProofTree.applied { node with id := ⟨0, 0⟩ } rule' skipped') hkids
          -- of the two replacements at the node the second one counts
          have hput : (proof.put n (ProofTree.openNode node).settled).put n q.settled =
              proof.put n q := by
            rw [ProofTree.settled_of_forgetHandles hq (hsettled.find? hfind).top,
              ProofTree.put_put fun _ => rfl, ProofTree.put_of_id hbareId]
          have htree' := (treeOf_eq_ok hwf).mpr
            ⟨_, hbare, ProofTree.mem_ids_of_find? hfound⟩
          refine ⟨hpruned, hgrafted, hwf.moves (graft_moves hwf n source), ⟨q, hid, hq, ?_⟩,
            hemptied, ?_⟩
          · rw [← hput]
            exact hproof
          · refine Spares.trans (fun u hu hnot => hspares u hu fun heq => hnot (.inl heq))
              (spares_graft (fun other hother => .inl ?_) (.inr rfl))
            exact Except.ok.inj (hother.symm.trans htree')

/-- Nodes whose proofs are the same but for handles are equal. -/
theorem deepEquals_of_forgetHandles {q : ProofTree} (hn : f.node? n = some p)
    (hm : f.node? m = some q) (h : p.forgetHandles = q.forgetHandles) :
    f.deepEquals n m = true := by
  rw [deepEquals, hn, hm]
  exact ProofTree.agrees_of_forgetHandles h

/-- They depend on the same, also in different forests. -/
theorem nodeDependencies_of_forgetHandles {g : Forest} {q : ProofTree} (hn : f.node? n = some p)
    (hm : g.node? m = some q) (h : q.forgetHandles = p.forgetHandles) :
    g.nodeDependencies m = f.nodeDependencies n := by
  rw [nodeDependencies, nodeDependencies, nodeOrError, nodeOrError, hn, hm]
  show Except.ok q.dependencies = Except.ok p.dependencies
  rw [← q.dependencies_forgetHandles, h, p.dependencies_forgetHandles]

/-- A proof that is the same as before, put in place, leaves the levels of the
    nodes above as they were. -/
theorem confidence_of_restored {g : Forest} {q : ProofTree} (h : (f.bench []).Wf allowed)
    (h' : (g.bench []).Wf allowed) (ht : t ∈ f.trees) (hfind : t.proof.find? n = some p)
    (hput : (t.id, t.proof.put n q) ∈ (g.bench []).proofs) (hid : q.id = n)
    (hq : q.forgetHandles = p.forgetHandles) (habove : f.AtOrAbove n m) :
    ∃ a b, f.node? m = some a ∧ g.node? m = some b ∧ b.confidence = a.confidence := by
  obtain ⟨a, ha, hbelow⟩ := habove.find? h ht hfind
  have hmem : (t.id, t.proof) ∈ (f.bench []).proofs := List.mem_map.mpr ⟨t, ht, rfl⟩
  have hids := nodup_ids h ht
  have hsettled : a.Settled := (h.settled _ (Bench.mem_all_of_mem hmem)).find? ha
  have hfound := ProofTree.find?_put_above hids (h'.ids_nodup (Bench.mem_all_of_mem hput)) hid ha
    (ProofTree.mem_ids_of_find? hbelow)
  have hsame := ProofTree.forgetHandles_put hsettled (ProofTree.nodup_ids_find? hids ha) hbelow hq
  refine ⟨a, a.put n q, node?_of_mem h hmem ha, node?_of_mem h' hput hfound, ?_⟩
  rw [← ProofTree.confidence_forgetHandles, hsame, ProofTree.confidence_forgetHandles]

/-- **Copy, prune and graft restore the proof.**  With two copies of the proof
    at a node, the proof taken off and the second copy put in its place, the
    node agrees with the first copy again.  It has its dependencies, it and all
    nodes above it have their levels, and the root of the second copy stays
    behind, open and with its comment. -/
theorem copy_graft_restores (hf : f.Reachable) (hnode : f.node? n = some p)
    (happlied : p.isOpen = false) :
    ∃ k c kept donor,
      let first := f.copySubtree n
      let second := first.2.copySubtree n
      let pruned := second.2.pruneAndDiscard n
      let grafted := pruned.2.graft n c
      first.1 = .ok k ∧ second.1 = .ok c ∧
      second.2.root k = .ok kept ∧ second.2.deepEquals n kept = true ∧
      second.2.root c = .ok donor ∧ second.2.deepEquals n donor = true ∧
      pruned.1 = .ok () ∧ grafted.1 = .ok true ∧
      grafted.2.root k = .ok kept ∧ grafted.2.deepEquals n kept = true ∧
      (∀ m, f.AtOrAbove n m → ∃ a b, f.node? m = some a ∧ grafted.2.node? m = some b ∧
        b.confidence = a.confidence) ∧
      grafted.2.nodeDependencies n = f.nodeDependencies n ∧
      grafted.2.root c = .ok donor ∧ ∃ a b, second.2.node? donor = some a ∧
        grafted.2.node? donor = some b ∧ b.isOpen = true ∧ b.comment = a.comment := by
  obtain ⟨t, ht, hfind⟩ := (node?_eq_some hf.wf).mp hnode
  have hmem : (t.id, t.proof) ∈ (f.bench []).proofs := List.mem_map.mpr ⟨t, ht, rfl⟩
  have hlt : t.id.number < f.nextTree := hf.wf.tree_lt _ hmem
  obtain ⟨hk, hc, hwf, copy, copy', hcopy, hcopy', hproofs⟩ := copySubtree_twice hf.wf hnode
  let second := ((f.copySubtree n).2.copySubtree n).2
  have hmem' : (t.id, t.proof) ∈ (second.bench []).proofs :=
    hproofs ▸ List.mem_append_left _ hmem
  have hkmem : (⟨f.nextTree⟩, copy) ∈ (second.bench []).proofs :=
    hproofs ▸ List.mem_append_right _ List.mem_cons_self
  have hcmem : (⟨f.nextTree + 1⟩, copy') ∈ (second.bench []).proofs :=
    hproofs ▸ List.mem_append_right _ (List.mem_cons_of_mem _ List.mem_cons_self)
  have hnode' := node?_of_mem hwf hmem' hfind
  have hdonor := node?_of_mem hwf hcmem copy'.find?_id
  -- the three trees are different ones
  have hne : t.id ≠ ⟨f.nextTree + 1⟩ := by
    intro heq
    rw [heq] at hlt
    exact Nat.not_succ_lt_self hlt
  have hoff : ¬ ((⟨f.nextTree⟩ : TreeId) = t.id ∨ (⟨f.nextTree⟩ : TreeId) = ⟨f.nextTree + 1⟩) := by
    rintro (heq | heq)
    · rw [← heq] at hlt
      exact Nat.lt_irrefl _ hlt
    · exact Nat.succ_ne_self _ (TreeId.mk.inj heq).symm
  -- the node gets back what it had, and the first copy stays
  obtain ⟨hpruned, hgrafted, hwf', ⟨q, hqid, hq, hput⟩, hemptied, hspares⟩ :=
    graft_from_copy hwf hmem' hfind happlied hcmem hne hcopy'
  have hkept := hspares _ hkmem hoff
  have hsettled := hf.wf.settled _ (Bench.mem_all_of_mem hmem)
  have hfound := ProofTree.find?_put hsettled (nodup_ids hf.wf ht) hfind hqid
  have hnode'' := node?_of_mem hwf' hput hfound
  let bare := copy'.withoutRule.settled
  have hbareId : bare.id = copy'.id := ProofTree.id_settled _
  refine ⟨⟨f.nextTree⟩, ⟨f.nextTree + 1⟩, copy.id, copy'.id, hk, hc, root_of_mem hwf hkmem, ?_,
    root_of_mem hwf hcmem, ?_, hpruned, hgrafted, root_of_mem hwf' hkept, ?_, ?_, ?_, ?_, ?_⟩
  · exact deepEquals_of_forgetHandles hnode' (node?_of_mem hwf hkmem copy.find?_id) hcopy.symm
  · exact deepEquals_of_forgetHandles hnode' hdonor hcopy'.symm
  · exact deepEquals_of_forgetHandles hnode'' (node?_of_mem hwf' hkept copy.find?_id)
      (hq.trans hcopy.symm)
  · exact fun m => confidence_of_restored hf.wf hwf' ht hfind hput hqid hq
  · exact nodeDependencies_of_forgetHandles hnode hnode'' hq
  · rw [← hbareId]
    exact root_of_mem hwf' hemptied
  · refine ⟨copy', bare, hdonor, ?_, rfl, rfl⟩
    rw [← hbareId]
    exact node?_of_mem hwf' hemptied bare.find?_id

/-- A rule more on the node with the comment, below the root of the first
    tree. -/
def deepened : Forest := (moved.applyRule ⟨2, 0⟩ waiving).2

theorem deepened_restored :
    ∃ p a b k c kept,
      let copied := (deepened.copySubtree ⟨2, 0⟩).2.copySubtree ⟨2, 0⟩
      let grafted := (copied.2.pruneAndDiscard ⟨2, 0⟩).2.graft ⟨2, 0⟩ c
      deepened.node? ⟨2, 0⟩ = some p ∧ p.isOpen = false ∧ p.comment = "later" ∧
      (deepened.copySubtree ⟨2, 0⟩).1 = .ok k ∧ copied.1 = .ok c ∧ grafted.1 = .ok true ∧
      grafted.2.root k = .ok kept ∧ grafted.2.deepEquals ⟨2, 0⟩ kept = true ∧
      deepened.parent? ⟨2, 0⟩ = some ⟨0, 0⟩ ∧ deepened.node? ⟨0, 0⟩ = some a ∧
      grafted.2.node? ⟨0, 0⟩ = some b ∧ b.confidence = a.confidence := by
  have hreachable : deepened.Reachable :=
    .step (.applyRule ⟨2, 0⟩ waiving) (moved_reachable trivial) trivial
  let p := (deepened.node? ⟨2, 0⟩).get (by decide +kernel)
  have hnode : deepened.node? ⟨2, 0⟩ = some p := (Option.some_get _).symm
  have happlied : p.isOpen = false := by decide +kernel
  have hparent : deepened.parent? ⟨2, 0⟩ = some ⟨0, 0⟩ := by decide +kernel
  -- all of it comes from the theorem, at a node with a node above it
  obtain ⟨k, c, kept, donor, hk, hc, -, -, -, -, -, hgrafted, hkept, hequal, habove, -⟩ :=
    copy_graft_restores hreachable hnode happlied
  obtain ⟨a, b, ha, hb, hlevel⟩ := habove ⟨0, 0⟩ (.single hparent)
  exact ⟨p, a, b, k, c, kept, hnode, happlied, by decide +kernel, hk, hc, hgrafted, hkept, hequal,
    hparent, ha, hb, hlevel⟩

end Forest

end SequentProver
