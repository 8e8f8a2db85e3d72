import SequentProver.Proofs.DeltaCompleteness
import SequentProver.Proofs.DeltaLayout

/-! # Batches coalesce

    However much happens to a tree in a batch, its listeners hear of it once.
    Nothing is told before the outermost batch ends; then every listener that
    is registered hears one delta if something was recorded, and nothing
    otherwise.  The delta is exact.

    Route:
    1. `Tidy`: outside of batches nothing is on record, and no two listeners
       have the same number.  Every operation keeps that;
    2. the records of a tree through a batch: they only grow, and if there are
       any, one is on a node that is still in the tree;
    3. the batch as a whole. -/

namespace SequentProver

open ProofTree (Declares isRecorded)

/-! ## Tidy trees -/

namespace Tree

variable {t t' : Tree}

/-- Nothing is on record outside of batches, and the listeners have numbers of
    their own that were given out. -/
structure Tidy (t : Tree) : Prop where
  settled : t.batches = 0 → t.records = []
  distinct : t.listeners.Nodup
  numbered : ∀ l ∈ t.listeners, l < t.nextListener

namespace Tidy

theorem planted (id : TreeId) (origin : Option String) (proof : ProofTree) :
    Tidy { id := id, origin := origin, proof := proof } where
  settled _ := rfl
  distinct := List.nodup_nil
  numbered _ hl := absurd hl List.not_mem_nil

/-- Beginning a batch does not untidy a tree. -/
theorem opened (h : t.Tidy) : t.opened.Tidy where
  settled hnone := absurd hnone (Nat.succ_ne_zero _)
  distinct := h.distinct
  numbered := h.numbered

/-- Neither does ending one: with the last batch the records go. -/
theorem closed (h : t.Tidy) : t.closed.Tidy where
  settled hnone := if_pos (Nat.le_of_sub_eq_zero hnone)
  distinct := h.distinct
  numbered := h.numbered

/-- An edit is recorded, so it has to be part of a batch. -/
theorem editNode (h : t.Tidy) (hbusy : 0 < t.batches) (n : NodeId) (flags : DeltaFlags)
    (change : ProofTree → ProofTree) : (t.editNode n flags change).Tidy := by
  rw [Tree.editNode]
  split
  · exact ⟨fun hnone => absurd hnone (Nat.ne_of_gt hbusy), h.distinct, h.numbered⟩
  · exact h

/-- A listener gets a number that was not in use. -/
theorem listen (h : t.Tidy) : Tidy { t with
    listeners := t.listeners ++ [t.nextListener], nextListener := t.nextListener + 1 } where
  settled := h.settled
  distinct := by
    -- the new number is above all others
    refine h.distinct.append (List.nodup_singleton _) ?_
    intro l hl hnew
    rw [List.mem_singleton.mp hnew] at hl
    exact Nat.lt_irrefl _ (h.numbered _ hl)
  numbered := by
    intro l hl
    rcases List.mem_append.mp hl with hl | hnew
    · exact Nat.lt_succ_of_lt (h.numbered l hl)
    · rw [List.mem_singleton.mp hnew]
      exact Nat.lt_succ_self _

theorem unlisten (h : t.Tidy) (listener : Nat) :
    Tidy { t with listeners := t.listeners.filter fun l => l ≠ listener } where
  settled := h.settled
  distinct := h.distinct.filter _
  numbered l hl := h.numbered l (List.mem_filter.mp hl).1

end Tidy

end Tree

namespace Forest

variable {f g : Forest} {tree other : TreeId} {t t' : Tree}

/-- Every tree of the forest is tidy. -/
def Tidy (f : Forest) : Prop := ∀ id t, f.tree? id = some t → t.Tidy

/-- A change of one tree that keeps it tidy keeps the forest tidy. -/
theorem tidy_updateTree {change : Tree → Tree} (hf : f.Tidy) (hid : ∀ t, (change t).id = t.id)
    (hchange : ∀ t, f.tree? tree = some t → t.Tidy → (change t).Tidy) :
    (f.updateTree tree change).Tidy := by
  intro id t' ht'
  rw [tree?_updateTree hid] at ht'
  split at ht'
  · rename_i hsame
    obtain ⟨t, ht, rfl⟩ := Option.map_eq_some_iff.mp ht'
    exact hchange t (hsame ▸ ht) (hf id t ht)
  · exact hf id t' ht'

theorem tidy_plant (hf : f.Tidy) (origin : Option String) (proof : ProofTree) :
    (f.plant origin proof).2.Tidy := by
  intro id t ht
  rw [plant, tree?, List.find?_append, Option.or_eq_some_iff] at ht
  rcases ht with ht | ⟨-, ht⟩
  · exact hf id t ht
  · obtain rfl := List.mem_singleton.mp (List.mem_of_find?_eq_some ht)
    exact .planted _ _ _

theorem tidy_plantAll (hf : f.Tidy) (proofs : List ProofTree) : (f.plantAll proofs).2.Tidy := by
  induction proofs generalizing f with
  | nil => exact hf
  | cons proof rest ih => exact ih (tidy_plant hf none proof)

theorem tidy_createTree (hf : f.Tidy) (s : Sequent) (origin : Option String) :
    (f.createTree s origin).2.Tidy :=
  tidy_plant (f := { f with slots := f.slots.alloc.2 }) hf origin _

theorem tidy_copySubtree (hf : f.Tidy) (n : NodeId) : (f.copySubtree n).2.Tidy := by
  rw [copySubtree]
  split
  · exact hf
  · rename_i proof _
    exact tidy_plant (f := { f with slots := (f.slots.copy proof).2 }) hf none _

/-- What is left after a removal was tidy before. -/
theorem tidy_removeTree (hf : f.Tidy) (tree : TreeId) : (f.removeTree tree).2.Tidy := by
  intro id t ht
  exact hf id t (tree?_of_removeTree ht)

theorem tidy_removeTrees (hf : f.Tidy) (trees : List TreeId) : (f.removeTrees trees).Tidy := by
  induction trees generalizing f with
  | nil => exact hf
  | cons tree rest ih => exact ih (tidy_removeTree hf tree)

/-- A batch that begins on any tree leaves the forest tidy. -/
theorem tidy_beginBatch (hf : f.Tidy) (tree : TreeId) : (f.beginBatch tree).Tidy := by
  refine tidy_updateTree hf ?_ ?_
  · exact fun _ => rfl
  · exact fun t _ ht => ht.opened

theorem tidy_endBatch (hf : f.Tidy) (tree : TreeId) : (f.endBatch tree).Tidy := by
  intro id t ht
  rw [tree?_endBatch] at ht
  split at ht
  · obtain ⟨u, hu, rfl⟩ := Option.map_eq_some_iff.mp ht
    exact (hf id u hu).closed
  · exact hf id t ht

theorem tidy_addListener (hf : f.Tidy) (tree : TreeId) : (f.addListener tree).2.Tidy := by
  rw [addListener]
  split
  · exact hf
  · refine tidy_updateTree hf ?_ ?_
    · exact fun _ => rfl
    · exact fun t _ ht => ht.listen

theorem tidy_removeListener (hf : f.Tidy) (tree : TreeId) (listener : Nat) :
    (f.removeListener tree listener).2.Tidy := by
  rw [removeListener]
  split
  · exact hf
  · refine tidy_updateTree hf ?_ ?_
    · exact fun _ => rfl
    · exact fun t _ ht => ht.unlisten listener

/-! ## Edits in batches -/

section Edit

variable (n : NodeId) (flags : DeltaFlags) (change : ProofTree → ProofTree)

/-- An edit records something, so it has to be inside a batch. -/
theorem tidy_editNode (hf : f.Tidy) (hbusy : Busy tree f) :
    (f.editNode tree n flags change).Tidy := by
  refine tidy_updateTree hf ?_ ?_
  · exact fun t => t.id_editNode n flags change
  · exact fun t ht htidy => htidy.editNode (hbusy t ht) n flags change

/-- Edits do not end batches. -/
theorem busy_editNode (hbusy : Busy tree f) (other : TreeId) :
    Busy tree (f.editNode other n flags change) := by
  intro t' ht'
  rw [editNode, tree?_updateTree fun t => t.id_editNode n flags change] at ht'
  split at ht'
  · obtain ⟨t, ht, rfl⟩ := Option.map_eq_some_iff.mp ht'
    rw [Tree.batches_editNode]
    exact hbusy t ht
  · exact hbusy t' ht'

end Edit

/-- A batch that begins does not end another. -/
theorem busy_beginBatch_of_busy (hbusy : Busy tree f) (other : TreeId) :
    Busy tree (f.beginBatch other) := by
  intro t' ht'
  rw [tree?_beginBatch] at ht'
  split at ht'
  · obtain ⟨t, ht, rfl⟩ := Option.map_eq_some_iff.mp ht'
    exact Nat.succ_pos _
  · exact hbusy t' ht'

/-- A rule is put on in a batch of its own. -/
theorem tidy_applyRule (hf : f.Tidy) (n : NodeId) (rule : Rule) : (f.applyRule n rule).2.Tidy := by
  rw [applyRule]
  split
  · exact hf
  · rename_i t p _
    split
    · split
      · exact hf
      · rename_i sequents skipped _
        exact tidy_endBatch (tidy_editNode
          (f := { f.beginBatch t.id with
            slots := ((f.beginBatch t.id).slots.openNodes sequents).2 }) n ruleFlags _
          (tidy_beginBatch hf t.id) (busy_beginBatch f t.id)) t.id
    · exact hf

/-- A comment is written in a batch of its own. -/
theorem tidy_setComment (hf : f.Tidy) (n : NodeId) (comment : String) :
    (f.setComment n comment).2.Tidy := by
  rw [setComment]
  split
  · exact hf
  · rename_i t p _
    split
    · exact hf
    · exact tidy_endBatch (tidy_editNode n .comment _ (tidy_beginBatch hf t.id)
        (busy_beginBatch f t.id)) t.id

/-- Subtrees are pruned in a batch of their own. -/
theorem tidy_pruneChildren (hf : f.Tidy) (n : NodeId) : (f.pruneChildren n).2.Tidy := by
  rw [pruneChildren]
  split
  · exact hf
  · rename_i t p _
    split
    · exact hf
    · exact tidy_endBatch (tidy_plantAll (tidy_editNode n ruleFlags _ (tidy_beginBatch hf t.id)
        (busy_beginBatch f t.id)) p.children) t.id

/-- A graft is in batches on both trees. -/
theorem tidy_graft (hf : f.Tidy) (n : NodeId) (source : TreeId) : (f.graft n source).2.Tidy := by
  rw [graft]
  split
  · exact hf
  · exact hf
  · rename_i t target donor _ _
    split
    · exact hf
    · rename_i root rule skipped children _
      split
      · -- both trees are in a batch when they are edited
        have hbegun := tidy_beginBatch (tidy_beginBatch hf t.id) source
        have hbusy := busy_beginBatch_of_busy (busy_beginBatch f t.id) source
        have hemptied := tidy_editNode root.id ruleFlags ProofTree.withoutRule hbegun
          (busy_beginBatch (f.beginBatch t.id) source)
        exact tidy_endBatch (tidy_endBatch (tidy_editNode n ruleFlags _ hemptied
          (busy_editNode root.id ruleFlags ProofTree.withoutRule hbusy source)) source) t.id
      · exact hf

/-- A replay is made of tidy pieces. -/
theorem Replays.tidy {allowed : Rule → Prop} (hrun : Replays allowed f g) (hf : f.Tidy) :
    g.Tidy := by
  induction hrun with
  | refl => exact hf
  | tail _ step ih =>
      cases step with
      | rule n _ => exact tidy_applyRule ih n _
      | comment n comment => exact tidy_setComment ih n comment

end Forest

open Forest in
/-- Every operation keeps the trees tidy. -/
theorem Op.tidy {f : Forest} (hf : f.Tidy) (op : Op) : (op.run f).Tidy := by
  -- replays are batches around edits, so what holds of both holds of them
  cases op with
  | createTree sequent origin => exact tidy_createTree hf sequent origin
  | removeTree tree => exact tidy_removeTree hf tree
  | copySubtree node => exact tidy_copySubtree hf node
  | applyRule node rule => exact tidy_applyRule hf node rule
  | applyReasoner node reasoner input monitor =>
      have hany : reasoner.Proposes fun _ => True := fun _ _ _ _ _ _ => trivial
      exact (applyReasoner_replays hany node input monitor).tidy hf
  | pruneChildren node => exact tidy_pruneChildren hf node
  | pruneAndDiscard node =>
      obtain ⟨trees, hrun⟩ := pruneAndDiscard_forest f node
      rw [run, hrun]
      exact tidy_removeTrees (tidy_pruneChildren hf node) trees
  | setComment node comment => exact tidy_setComment hf node comment
  | graft node source => exact tidy_graft hf node source
  | reuse node skeleton =>
      cases htree : f.treeOf node with
      | error e =>
          rw [run, Forest.reuse, htree]
          exact hf
      | ok tree =>
          rw [run, reuse_forest htree]
          exact tidy_endBatch ((reuseNode_replays skeleton.every_true node).tidy
            (tidy_beginBatch hf tree)) tree
  | rebuild node skeleton registry monitor config =>
      have hany : registry.Proposes fun _ => True := fun _ _ _ _ _ _ _ _ _ => trivial
      cases htree : f.treeOf node with
      | error e =>
          rw [run, Forest.rebuild, htree]
          exact hf
      | ok tree =>
          rw [run, rebuild_forest htree]
          exact tidy_endBatch ((rebuildNode_replays hany skeleton.every_true config
            ⟨f.beginBatch tree, monitor⟩ node).tidy (tidy_beginBatch hf tree)) tree
  | addListener tree => exact tidy_addListener hf tree
  | removeListener tree listener => exact tidy_removeListener hf tree listener
  | beginBatch tree => exact tidy_beginBatch hf tree
  | endBatch tree => exact tidy_endBatch hf tree

/-- Every reachable forest is tidy. -/
theorem Forest.Reachable.tidy {f : Forest} (hf : f.Reachable) : f.Tidy := by
  induction hf with
  | empty =>
      intro id t ht
      cases ht
  | step op _ _ ih => exact op.tidy ih

/-! ## Records through a batch -/

/-- The node that was edited is still in the tree. -/
theorem ProofTree.mem_ids_edit {t : ProofTree} {n : NodeId} {made : DeltaFlags}
    {change : ProofTree → ProofTree} {e : Edited ProofTree} (hmade : Declares made change)
    (he : t.edit n change = some e) : n ∈ e.result.ids := by
  induction t using children_induct generalizing e with
  | step t ih =>
      rcases edit_cases he with ⟨rfl, rfl⟩ | ⟨node, rule, skipped, before, c, after, d, rfl, hd, rfl⟩
      · have hid : (change t).settle.result.id = t.id := by
          rw [settle_result, id_settled, hmade.id]
        rw [← hid]
        exact id_mem_ids _
      -- the edit lies below, and settling the node above it removes nothing
      · have hmem : n ∈ (ProofTree.applied node rule skipped (before ++ d.result :: after)).ids := by
          have hbelow := ih c (List.mem_append_right _ List.mem_cons_self) hd
          rw [ids_eq]
          exact List.mem_cons_of_mem _ (List.mem_flatMap.mpr
            ⟨d.result, List.mem_append_right _ List.mem_cons_self, hbelow⟩)
        rcases (settleAbove_cases node rule skipped ⟨before ++ d.result :: after, d.moved,
          d.risen⟩).2 with hresult | ⟨hresult, -⟩
        · rw [hresult]
          exact hmem
        · rw [hresult, ids_settled]
          exact hmem

namespace Tree

variable {t t' : Tree}

/-- Inside a batch no record is dropped. -/
theorem Step.records (step : Step t t') : t.records <+: t'.records := by
  cases step with
  | edit n made =>
      rw [Tree.editNode]
      split
      · exact List.prefix_append _ _
      · exact List.prefix_rfl
  | attend listeners nextListener => exact List.prefix_rfl
  | opened => exact List.prefix_rfl
  | closed nested =>
      refine ⟨[], ?_⟩
      rw [records_closed nested, List.append_nil]

/-- Within a batch records are only added. -/
theorem Steps.records (steps : t.Steps t') : t.records <+: t'.records := by
  induction steps with
  | refl => exact List.prefix_rfl
  | tail _ step ih => exact ih.trans step.records

/-- If there are records, one of them is on a node of the tree. -/
def Mentions (t : Tree) : Prop :=
  t.records ≠ [] → ∃ n ∈ t.proof.ids, isRecorded t.records n = true

/-- After a step, too, records are on a node of the tree. -/
theorem Step.mentions (step : Step t t') (h : t.Mentions) : t'.Mentions := by
  cases step with
  | edit n made =>
      rw [Tree.editNode]
      split
      · rename_i e he
        intro _
        refine ⟨n, ProofTree.mem_ids_edit made he, ?_⟩
        exact List.any_eq_true.mpr
          ⟨_, List.mem_append_right _ List.mem_cons_self, decide_eq_true rfl⟩
      · exact h
  | attend listeners nextListener => exact h
  | opened => exact h
  | closed nested =>
      rw [Mentions, records_closed nested]
      exact h

theorem Steps.mentions (steps : t.Steps t') (h : t.Mentions) : t'.Mentions := by
  induction steps with
  | refl => exact h
  | tail _ step ih => exact step.mentions ih

/-- What is told at the end of the outermost batch: nothing if there are no
    records, and otherwise one exact delta to every listener. -/
theorem told_exact (hids : t.proof.ids.Nodup) (hlast : t.batches = 1) (h : t.Mentions) :
    (t.records = [] ∧ t.told = []) ∨
      (t.records ≠ [] ∧ ∃ delta, delta.tree = t.id ∧
        t.told = t.listeners.map (fun l => ⟨l, delta⟩) ∧ delta.Exact t.proof t.records) := by
  rw [told, if_pos (Nat.le_of_eq hlast)]
  -- a delta is missing only if no node that is there was recorded
  cases hdelta : t.delta? with
  | none =>
      refine .inl ⟨?_, rfl⟩
      by_contra hsome
      obtain ⟨n, hn, hrecorded⟩ := h hsome
      obtain ⟨d, hd, -⟩ := ProofTree.exists_delta? hn hrecorded
      rw [delta?, hd] at hdelta
      cases hdelta
  | some delta =>
      have hexact := exact_delta? hids hdelta
      obtain ⟨d, hd, rfl⟩ := Option.map_eq_some_iff.mp hdelta
      refine .inr ⟨?_, _, rfl, rfl, hexact⟩
      obtain ⟨m, -, hrecorded⟩ := ProofTree.exists_recorded_of_delta? hd
      intro hnone
      rw [hnone] at hrecorded
      cases hrecorded

end Tree

/-! ## Whole batches -/

namespace Forest

variable {f g : Forest} {tree : TreeId} {t t' : Tree}

/-- Batches coalesce.  Take an outermost batch on a tree, and any point of it.
    Nothing was on record at its begin, so the records are those of the batch,
    and none of them is dropped; up to here the listeners of the tree heard
    nothing.  If the batch ends here, every listener hears one delta, the same
    for all and exact, or nothing if there are no records. -/
theorem batch_coalesces (hf : f.Reachable) (ht : f.tree? tree = some t) (hfree : t.batches = 0)
    (during : During tree (f.beginBatch tree) g) (ht' : g.tree? tree = some t') :
    t.records = [] ∧
      (∀ g₀ t₀, During tree (f.beginBatch tree) g₀ → During tree g₀ g →
        g₀.tree? tree = some t₀ → t₀.records <+: t'.records) ∧
      (∃ early, g.notices = f.notices ++ early ∧ about tree early = []) ∧
      t'.listeners.Nodup ∧
      (t'.batches = 1 → ∃ new, (g.endBatch tree).notices = f.notices ++ new ∧
        ((t'.records = [] ∧ about tree new = []) ∨
          (t'.records ≠ [] ∧ ∃ delta, delta.tree = tree ∧
            about tree new = t'.listeners.map (fun l => ⟨l, delta⟩) ∧
            delta.Exact t'.proof t'.records))) := by
  have hlive := (tree?_eq_some hf.wf).mp ht
  have hissued : tree.number < f.nextTree :=
    hlive.2 ▸ hf.wf.tree_lt (t.id, t.proof) (List.mem_map.mpr ⟨t, hlive.1, rfl⟩)
  have hg : g.Reachable := during.reachable (.step (.beginBatch tree) hf trivial)
  have hids' := nodup_ids hg.wf ((tree?_eq_some hg.wf).mp ht').1
  have hstart : t.records = [] := (hf.tidy tree t ht).settled hfree
  have hinside := (during.inside hissued (busy_beginBatch f tree)).1
  refine ⟨hstart, ?_, ?_, (hg.tidy tree t' ht').distinct, ?_⟩
  · intro g₀ t₀ before after ht₀
    obtain ⟨hinside₀, hbusy₀⟩ := before.inside hissued (busy_beginBatch f tree)
    obtain ⟨u, hu, hsteps⟩ := ((after.inside hinside₀.issued hbusy₀).1).steps t' ht'
    obtain rfl : t₀ = u := Option.some.inj (ht₀.symm.trans hu)
    exact Tree.Steps.records hsteps
  · obtain ⟨early, hearly, habout⟩ := hinside.silent
    exact ⟨early, hearly, about_eq_nil habout⟩
  · intro hlast
    have hafter : Quiet tree (g.endBatch tree) (g.endBatch tree) := by
      refine Quiet.refl ?_
      rw [nextTree_endBatch]
      exact hinside.issued
    obtain ⟨new, hnew, habout⟩ := about_batch (Quiet.refl hissued) hinside hafter ht'
    refine ⟨new, hnew, ?_⟩
    -- the tree was without records when the batch began
    have hmentions : t'.Mentions := by
      obtain ⟨t₀, ht₀, hsteps⟩ := hinside.steps t' ht'
      obtain ⟨u, hu, rfl⟩ := tree?_opened ht₀
      obtain rfl : t = u := Option.some.inj (ht.symm.trans hu)
      exact Tree.Steps.mentions hsteps fun hsome => absurd hstart hsome
    have hid : t'.id = tree := ((tree?_eq_some hg.wf).mp ht').2
    rw [habout, ← hid]
    exact t'.told_exact hids' hlast hmentions

/-- A batch in which a node gets a comment, inside a batch of its own, and then
    leaves the tree; after that a second listener comes. -/
def trimmed : Forest :=
  let f := Op.run (Op.run (listened.beginBatch ⟨0⟩) (.beginBatch ⟨0⟩)) (.setComment ⟨2, 0⟩ "aside")
  Op.run (Op.run (Op.run f (.endBatch ⟨0⟩)) (.pruneChildren ⟨1, 0⟩)) (.addListener ⟨0⟩)

/-- Each operation of the example leaves the outer batch open. -/
theorem trimmed_during : During ⟨0⟩ (listened.beginBatch ⟨0⟩) trimmed := by
  have hbusy : ∀ {f : Forest}, (f.tree? ⟨0⟩).all (fun t => 0 < t.batches) = true →
      Busy ⟨0⟩ f := by
    intro f hall t ht
    rw [ht] at hall
    exact of_decide_eq_true hall
  rw [trimmed]
  refine .step _ (.step _ (.step _ (.step _ (.step _ .start trivial ?_) trivial ?_) trivial ?_)
    trivial ?_) trivial ?_
  · exact hbusy (by decide +kernel)
  · exact hbusy (by decide +kernel)
  · exact hbusy (by decide +kernel)
  · exact hbusy (by decide +kernel)
  · exact hbusy (by decide +kernel)

theorem trimmed_coalesces : ∃ t', trimmed.tree? ⟨0⟩ = some t' ∧ t'.batches = 1 ∧
    isRecorded t'.records ⟨2, 0⟩ = true ∧ t'.proof.ids = [⟨0, 0⟩, ⟨1, 0⟩] ∧
    t'.listeners = [0, 1] ∧
    ∃ new, (trimmed.endBatch ⟨0⟩).notices = listened.notices ++ new ∧
      ((t'.records = [] ∧ about ⟨0⟩ new = []) ∨
        (t'.records ≠ [] ∧ ∃ delta, delta.tree = ⟨0⟩ ∧
          about ⟨0⟩ new = t'.listeners.map (fun l => ⟨l, delta⟩) ∧
          delta.Exact t'.proof t'.records)) := by
  have hstart : (listened.tree? ⟨0⟩).any (fun t => t.batches = 0) = true := by decide +kernel
  have hend : (trimmed.tree? ⟨0⟩).any (fun t => t.batches = 1 ∧
      isRecorded t.records ⟨2, 0⟩ = true ∧ t.proof.ids = [⟨0, 0⟩, ⟨1, 0⟩] ∧
      t.listeners = [0, 1]) = true := by decide +kernel
  obtain ⟨t, ht, hfree⟩ := (Option.any_eq_true _ _).mp hstart
  obtain ⟨t', ht', hend⟩ := (Option.any_eq_true _ _).mp hend
  obtain ⟨hlast, hrecorded, hids, hlisteners⟩ := of_decide_eq_true hend
  obtain ⟨-, -, -, -, htold⟩ :=
    batch_coalesces listened_reachable ht (of_decide_eq_true hfree) trimmed_during ht'
  exact ⟨t', ht', hlast, hrecorded, hids, hlisteners, htold hlast⟩

end Forest

end SequentProver
