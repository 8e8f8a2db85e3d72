import SequentProver.Proofs.CopyAndGraft

/-! # Refused operations change nothing

    An operation is refused for an unknown handle, for a node that has a rule
    or a rule that does not apply, or because there is nothing to do.  The
    forest is then the one before, down to the slots, the open batches and what
    is recorded, and no listener has heard anything.

    A replay is many steps in one batch, and a step that failed halfway would
    leave the steps before it behind.  At a known node none fails: the node is
    open when a rule is tried, a rule that does not apply is no error there, and
    the nodes that the replay goes down to are in the tree that it stays in.

    Route:
    1. what the operations answer at a known node;
    2. the same for the steps of a replay and, down the skeleton, for a whole
       one;
    3. `Refused`, and all operations. -/

namespace SequentProver

namespace Forest

variable {allowed : Rule → Prop} {f : Forest} {n : NodeId} {p : ProofTree} {tree : TreeId}

/-! ## Answers at a known node -/

section Known

variable (hnode : f.node? n = some p)
include hnode

/-- A comment is set on any node that is there. -/
theorem setComment_answers (comment : String) : (f.setComment n comment).1 = .ok () := by
  obtain ⟨⟨t, q⟩, located, rfl⟩ := Option.map_eq_some_iff.mp hnode
  rw [setComment, located]
  dsimp only
  split <;> rfl

/-- A comment is put back on any node that is there. -/
theorem restoreComment_answers (comment : String) : (f.restoreComment n comment).1 = .ok () := by
  rw [restoreComment]
  split
  · rfl
  · exact setComment_answers hnode comment

/-- Any node that is there is pruned. -/
theorem pruneAndDiscard_answers : (f.pruneAndDiscard n).1 = .ok () := by
  obtain ⟨trees, hanswer, -⟩ := pruneChildren_plants hnode
  rw [pruneAndDiscard]
  split
  · rename_i hrun
    rw [hrun] at hanswer
    cases hanswer
  · rfl

variable (hopen : p.isOpen = true)
include hopen

/-- At an open node the only way to fail is that the rule does not apply. -/
theorem applyRule_answers (rule : Rule) : (f.applyRule n rule).1 = .ok () ∨
    (f.applyRule n rule).1 = .error (.ruleNotApplicable n rule.display) := by
  obtain ⟨⟨t, q⟩, located, rfl⟩ := Option.map_eq_some_iff.mp hnode
  rw [applyRule, located]
  dsimp only
  rw [if_pos hopen]
  split
  · exact .inr rfl
  · exact .inl rfl

/-- A rule is tried on any node that is there. -/
theorem tryRule_answers (rule : Rule) : ∃ applied, (f.tryRule n rule).1 = .ok applied := by
  rw [tryRule]
  split
  · exact ⟨true, rfl⟩
  · exact ⟨false, rfl⟩
  · rename_i hnot hrun
    rcases applyRule_answers hnode hopen rule with hok | hrefused
    · rw [hrun] at hok
      cases hok
    · rw [hrun] at hrefused
      cases hrefused
      exact (hnot _ _ rfl).elim

/-- Likewise for a step with a reasoner, or the reasoner itself fails. -/
theorem applyReasoner_answers (reasoner : Reasoner) (input : Input) (monitor : Monitor) :
    (f.applyReasoner n reasoner input monitor).outcome = .ok () ∨
      (∃ failure,
        (f.applyReasoner n reasoner input monitor).outcome = .error (.reasoner failure)) ∨
      ∃ display, (f.applyReasoner n reasoner input monitor).outcome =
        .error (.tree (.ruleNotApplicable n display)) := by
  rw [applyReasoner, hnode]
  dsimp only
  rw [if_pos hopen]
  split
  · exact .inr (.inl ⟨_, rfl⟩)
  -- a reasoner that answers can still propose a rule that does not apply
  · split
    · exact .inr (.inl ⟨_, rfl⟩)
    · rename_i rule _ _
      dsimp only
      rcases applyRule_answers hnode hopen { rule with input := input } with hok | hrefused
      · rw [hok]
        exact .inl rfl
      · rw [hrefused]
        exact .inr (.inr ⟨_, rfl⟩)

end Known

/-! ## Replays at a known node -/

section Replay

variable {w : Watched} (registry : Registry) (config : ReplayConfig)

/-- A reasoner is asked again at any open node. -/
theorem rerun_answers (hnode : w.forest.node? n = some p) (hopen : p.isOpen = true) (rule : Rule) :
    ∃ applied, (rerun registry w n rule).1 = .ok applied := by
  rw [rerun]
  dsimp only
  split
  · exact ⟨false, rfl⟩
  · split
    · exact ⟨false, rfl⟩
    · rename_i reasoner _
      rcases applyReasoner_answers hnode hopen reasoner rule.input w.monitor.poll.2 with
        hok | ⟨failure, hfailed⟩ | ⟨display, hrefused⟩
      · rw [hok]
        exact ⟨true, rfl⟩
      · rw [hfailed]
        exact ⟨false, rfl⟩
      · rw [hrefused]
        exact ⟨false, rfl⟩

/-- One node of a rebuild answers wherever there is a node. -/
theorem rebuildStep_answers (hnode : w.forest.node? n = some p) (rule : Rule) :
    ∃ applied, (rebuildStep registry config w n rule).1 = .ok applied := by
  rw [rebuildStep, nodeOrError, hnode]
  dsimp only
  split
  · rename_i hopen
    split
    · -- the recorded rule was tried and failed
      rename_i hrun
      split at hrun
      · obtain ⟨applied, hanswer⟩ := tryRule_answers hnode hopen rule
        rw [hrun] at hanswer
        cases hanswer
      · cases hrun
    · exact ⟨true, rfl⟩
    · rename_i g hrun
      -- where it does not apply, the node is as before for the reasoner
      have hsame : g = w.forest := by
        split at hrun
        · have hrefused := tryRule_of_refused (congrArg Prod.fst hrun)
          exact congrArg Prod.snd (hrun.symm.trans hrefused)
        · exact (congrArg Prod.snd hrun).symm
      subst hsame
      split
      · exact rerun_answers (w := ⟨w.forest, w.monitor⟩) registry hnode hopen rule
      · exact ⟨false, rfl⟩
  · exact ⟨false, rfl⟩

theorem exists_node?_of_treeOf (htree : f.treeOf n = .ok tree) : ∃ p, f.node? n = some p := by
  rw [treeOf] at htree
  split at htree
  · rename_i t p located
    exact ⟨p, by rw [node?, located]; rfl⟩
  · cases htree

/-- A rebuild of a known node comes to its end: what it goes down to is in the
    tree of the node, and stays there. -/
theorem rebuildNode_answers (s : Skeleton) (hf : (w.forest.bench []).Wf fun _ => True)
    (htree : w.forest.treeOf n = .ok tree) : (rebuildNode registry config w n s).1 = .ok () := by
  induction s generalizing w n with
  | mk comment rule? children ih =>
      -- pairwise, each on the forest the others left
      have hamong : ∀ (w : Watched) nodes, (w.forest.bench []).Wf (fun _ => True) →
          (∀ m ∈ nodes, w.forest.treeOf m = .ok tree) →
          (rebuildAmong registry config w nodes children).1 = .ok () := by
        intro w nodes hf hnodes
        induction children generalizing w nodes with
        | nil => cases nodes <;> rfl
        | cons s rest ihrest =>
            cases nodes with
            | nil => rfl
            | cons node nodes =>
                have hnode := hnodes node List.mem_cons_self
                have hanswer := ih s List.mem_cons_self hf hnode
                have hconfined := confined_rebuildNode registry config s hf hnode
                rw [rebuildAmong]
                split <;> rename_i hrun <;> rw [hrun] at hanswer hconfined
                · cases hanswer
                · refine ihrest (fun c hc => ih c (List.mem_cons_of_mem _ hc)) _ nodes
                    hconfined.wf ?_
                  intro m hm
                  exact hconfined.kept m (hnodes m (List.mem_cons_of_mem _ hm))
      obtain ⟨p, hp⟩ := exists_node?_of_treeOf htree
      have hcomment : (if config.keepComments then w.forest.restoreComment n comment
          else (.ok (), w.forest)).1 = .ok () := by
        split
        · exact restoreComment_answers hp comment
        · rfl
      have hconfined := confined_keepComment hf htree config.keepComments comment
      rw [rebuildNode]
      split <;> rename_i g hrun <;> rw [hrun] at hcomment hconfined
      · cases hcomment
      · split
        · rfl
        · rename_i rule
          have hkept := hconfined.kept n htree
          obtain ⟨q, hq⟩ := exists_node?_of_treeOf hkept
          obtain ⟨applied, hanswer⟩ :=
            rebuildStep_answers (w := ⟨g, w.monitor⟩) registry config hq rule
          have hstep :=
            confined_rebuildStep (w := ⟨g, w.monitor⟩) registry config hconfined.wf hkept rule
          split <;> rename_i hrun' <;> rw [hrun'] at hanswer hstep
          · cases hanswer
          · refine hamong _ _ hstep.wf ?_
            exact treeOf_childIds hstep.wf (hstep.kept n hkept)

end Replay

section Replays

variable (hf : (f.bench []).Wf fun _ => True) (hnode : f.node? n = some p)
include hf hnode

/-- A rebuild answers wherever there is a node. -/
theorem rebuild_answers (s : Skeleton) (registry : Registry) (monitor : Monitor)
    (config : ReplayConfig) :
    ∃ closed, (f.rebuild n s registry monitor config).1 = .ok closed := by
  obtain ⟨t, ht, hfind⟩ := (node?_eq_some hf).mp hnode
  have htree := treeOf_of_find? hf ht hfind
  obtain ⟨hwf, htree'⟩ := treeOf_beginBatch hf htree
  have hanswer :=
    rebuildNode_answers (w := ⟨f.beginBatch t.id, monitor⟩) registry config s hwf htree'
  rw [rebuild, htree]
  dsimp only [inBatch]
  split
  · rename_i hrun
    rw [hrun] at hanswer
    cases hanswer
  · exact ⟨_, rfl⟩

/-- A reuse answers wherever there is a node. -/
theorem reuse_answers (s : Skeleton) : ∃ closed, (f.reuse n s).1 = .ok closed := by
  rw [reuse_eq_rebuild]
  exact rebuild_answers hf hnode s _ _ _

end Replays

/-- Where an operation answers at a known node and does nothing at an unknown
    one, it fails only at an unknown node and then does nothing. -/
theorem unchanged_of_error {α : Type} {run : Except TreeError α × Forest}
    (hunknown : f.node? n = none → run = (.error (.unknownNode n), f))
    (hknown : ∀ p, f.node? n = some p → ∃ answer, run.1 = .ok answer) :
    ((∃ e, run.1 = .error e) ↔ f.node? n = none) ∧ ((∃ e, run.1 = .error e) → run.2 = f) := by
  cases hnode : f.node? n with
  | none =>
      rw [hunknown hnode]
      exact ⟨⟨fun _ => rfl, fun _ => ⟨_, rfl⟩⟩, fun _ => rfl⟩
  | some p =>
      obtain ⟨answer, hanswer⟩ := hknown p hnode
      rw [hanswer]
      constructor
      · constructor
        · rintro ⟨e, he⟩
          cases he
        · intro hnone
          cases hnone
      · rintro ⟨e, he⟩
        cases he

/-- A step that fails changes nothing. -/
theorem applyReasoner_of_error {reasoner : Reasoner} {input : Input} {monitor : Monitor}
    {e : StepError} (h : (f.applyReasoner n reasoner input monitor).outcome = .error e) :
    (f.applyReasoner n reasoner input monitor).forest = f := by
  revert h
  rw [applyReasoner]
  split
  · exact fun _ => rfl
  · split
    · dsimp only
      split
      · exact fun _ => rfl
      · split
        · exact fun _ => rfl
        · rename_i rule _ _
          intro h
          -- only the rule can have touched the forest, and it refused
          cases hanswer : (f.applyRule n { rule with input := input }).1 with
          | error e' => exact applyRule_of_error hanswer
          | ok _ =>
              dsimp only at h
              rw [hanswer] at h
              cases h
    · exact fun _ => rfl

end Forest

/-! ## All operations -/

namespace Op

open Forest

variable {f : Forest}

/-- The operation fails, or there is nothing for it to do. -/
def Refused (f : Forest) : Op → Prop
  | .removeTree tree => (f.removeTree tree).1 = false
  | .copySubtree node => ∃ e, (f.copySubtree node).1 = .error e
  | .applyRule node rule => ∃ e, (f.applyRule node rule).1 = .error e
  | .applyReasoner node reasoner input monitor =>
    ∃ e, (f.applyReasoner node reasoner input monitor).outcome = .error e
  | .pruneChildren node => (∃ e, (f.pruneChildren node).1 = .error e) ∨
    ∃ p, f.node? node = some p ∧ p.isOpen = true
  | .pruneAndDiscard node => ∃ e, (f.pruneAndDiscard node).1 = .error e
  | .setComment node comment => (∃ e, (f.setComment node comment).1 = .error e) ∨
    ∃ p, f.node? node = some p ∧ p.comment = comment
  | .graft node source => (∃ e, (f.graft node source).1 = .error e) ∨
    (f.graft node source).1 = .ok false
  | .reuse node skeleton => ∃ e, (f.reuse node skeleton).1 = .error e
  | .rebuild node skeleton registry monitor config =>
    ∃ e, (f.rebuild node skeleton registry monitor config).1 = .error e
  | _ => False

section Refused

variable (hf : (f.bench []).Wf fun _ => True)
include hf

/-- A reuse fails where there is no node, and changes nothing then. -/
theorem reuse_fails (n : NodeId) (s : Skeleton) :
    ((∃ e, (f.reuse n s).1 = .error e) ↔ f.node? n = none) ∧
      ((∃ e, (f.reuse n s).1 = .error e) → (f.reuse n s).2 = f) :=
  unchanged_of_error (fun hnode => (unknown_of_node? hf hnode).reuse s)
    fun _ hnode => reuse_answers hf hnode s

/-- A rebuild fails where there is no node, and changes nothing then. -/
theorem rebuild_fails (n : NodeId) (s : Skeleton) (registry : Registry) (monitor : Monitor)
    (config : ReplayConfig) :
    ((∃ e, (f.rebuild n s registry monitor config).1 = .error e) ↔ f.node? n = none) ∧
      ((∃ e, (f.rebuild n s registry monitor config).1 = .error e) →
        (f.rebuild n s registry monitor config).2 = f) :=
  unchanged_of_error (fun hnode => (unknown_of_node? hf hnode).rebuild s registry monitor config)
    fun _ hnode => rebuild_answers hf hnode s registry monitor config

/-- **An operation that is refused changes nothing.**. -/
theorem run_of_refused (op : Op) (h : op.Refused f) : op.run f = f := by
  -- refused are an unknown handle, a node that does not fit, and a change that is none
  cases op with
  | createTree sequent origin => exact h.elim
  | removeTree tree =>
      cases htree : f.tree? tree with
      | none => exact congrArg Prod.snd (unknownTree_of_tree? htree).removeTree
      | some t =>
          rw [Refused, Forest.removeTree, htree] at h
          cases h
  | copySubtree node =>
      refine (unchanged_of_error (fun hnode => (unknown_of_node? hf hnode).copySubtree) ?_).2 h
      exact fun _ hnode => ⟨_, (copySubtree_appends hnode).1⟩
  | applyRule node rule =>
      obtain ⟨e, he⟩ := h
      exact applyRule_of_error he
  | applyReasoner node reasoner input monitor =>
      obtain ⟨e, he⟩ := h
      exact applyReasoner_of_error he
  | pruneChildren node =>
      rcases h with herror | ⟨p, hnode, hopen⟩
      · refine (unchanged_of_error (fun hnode => (unknown_of_node? hf hnode).pruneChildren) ?_).2
          herror
        intro p hnode
        obtain ⟨trees, hanswer, -⟩ := pruneChildren_plants hnode
        exact ⟨trees, hanswer⟩
      · obtain ⟨⟨t, q⟩, located, rfl⟩ := Option.map_eq_some_iff.mp hnode
        exact congrArg Prod.snd (pruneChildren_open located hopen)
  | pruneAndDiscard node =>
      refine (unchanged_of_error (fun hnode => (unknown_of_node? hf hnode).pruneAndDiscard) ?_).2 h
      exact fun _ hnode => ⟨(), pruneAndDiscard_answers hnode⟩
  | setComment node comment =>
      -- if anything was written there was no error, and the comment was another one
      rcases setComment_cases f node comment with hsame | ⟨t, p, located, hne⟩
      · exact hsame
      · have hnode : f.node? node = some p := by
          rw [node?, located]
          rfl
        rcases h with ⟨e, he⟩ | ⟨q, hq, hcomment⟩
        · rw [setComment_answers hnode] at he
          cases he
        · cases hnode.symm.trans hq
          exact absurd hcomment hne
  | graft node source =>
      rcases graft_cases f node source with hsame | ⟨t, p, donor, root, rule, skipped, children,
        located, htree, hdonor, hopen, hne, hsequent⟩
      · exact hsame
      · have hanswer := (bench_graft hf located htree hdonor hopen hne hsequent).1
        rcases h with ⟨e, he⟩ | hfalse
        · cases hanswer.symm.trans he
        · cases hanswer.symm.trans hfalse
  | reuse node skeleton => exact (reuse_fails hf node skeleton).2 h
  | rebuild node skeleton registry monitor config =>
      exact (rebuild_fails hf node skeleton registry monitor config).2 h
  | addListener tree => exact h.elim
  | removeListener tree listener => exact h.elim
  | beginBatch tree => exact h.elim
  | endBatch tree => exact h.elim

end Refused

/-- **Refused operations change nothing.**  What an operation leaves, when it
    fails or has nothing to do, is the forest before it, with its slots, its
    open batches, what is recorded and what listeners have heard.  A replay
    fails at an unknown node, and never otherwise. -/
theorem refused_changes_nothing (hf : f.Reachable) :
    (∀ op : Op, op.Refused f → op.run f = f) ∧
    (∀ n s, (∃ e, (f.reuse n s).1 = .error e) ↔ f.node? n = none) ∧
    ∀ n s registry monitor config,
      (∃ e, (f.rebuild n s registry monitor config).1 = .error e) ↔ f.node? n = none := by
  refine ⟨run_of_refused hf.wf, ?_, ?_⟩
  · intro n s
    exact (reuse_fails hf.wf n s).1
  · intro n s registry monitor config
    exact (rebuild_fails hf.wf n s registry monitor config).1

/-- In an open batch with changes recorded: a rule for a node that has one, a
    graft from a bare tree and a rebuild of a node that is gone. -/
theorem moved_refusals :
    (∃ t, moved.tree? ⟨0⟩ = some t ∧ t.batches = 1 ∧ t.records.length = 3) ∧
      (moved.applyRule ⟨0, 0⟩ waiving).1 = .error (.nodeNotOpen ⟨0, 0⟩) ∧
      (moved.applyRule ⟨0, 0⟩ waiving).2 = moved ∧
      (moved.graft ⟨2, 0⟩ ⟨2⟩).1 = .ok false ∧ (moved.graft ⟨2, 0⟩ ⟨2⟩).2 = moved ∧
      moved.node? ⟨1, 0⟩ = none ∧ ∀ s registry monitor config,
        (∃ e, (moved.rebuild ⟨1, 0⟩ s registry monitor config).1 = .error e) ∧
        (moved.rebuild ⟨1, 0⟩ s registry monitor config).2 = moved := by
  obtain ⟨hrun, -, hrebuild⟩ := refused_changes_nothing (moved_reachable trivial)
  let t := (moved.tree? ⟨0⟩).get (by decide +kernel)
  have ht : moved.tree? ⟨0⟩ = some t := (Option.some_get _).symm
  have happlied : (moved.applyRule ⟨0, 0⟩ waiving).1 = .error (.nodeNotOpen ⟨0, 0⟩) := by
    decide +kernel
  have hbare : (moved.graft ⟨2, 0⟩ ⟨2⟩).1 = .ok false := by decide +kernel
  -- the slot is in use again, by a later generation
  have hgone : moved.node? ⟨1, 0⟩ = none := by
    rw [← Option.not_isSome_iff_eq_none]
    decide +kernel
  refine ⟨⟨t, ht, by decide +kernel, by decide +kernel⟩, happlied,
    hrun (.applyRule ⟨0, 0⟩ waiving) ⟨_, happlied⟩, hbare,
    hrun (.graft ⟨2, 0⟩ ⟨2⟩) (.inr hbare), hgone, ?_⟩
  intro s registry monitor config
  have herror := (hrebuild _ s registry monitor config).mpr hgone
  exact ⟨herror, hrun (.rebuild ⟨1, 0⟩ s registry monitor config) herror⟩

end Op

end SequentProver
