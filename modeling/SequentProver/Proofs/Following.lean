import SequentProver.Proofs.Regrowth

/-! # Proofs that a replay follows

    A replay of a proof on another sequent follows the proof as long as the
    recorded rules apply.  If they all do, the tree that grows has the
    skeleton and the levels of the recorded one; if one does not, a node
    stays open.  So the answer of a replay is whether it could follow to the
    end. -/

namespace SequentProver

namespace ProofTree

variable {allowed : Rule → Prop} {t grown : ProofTree} {s : Sequent} {node : Node} {rule : Rule}
  {skipped skipped' : SkippedActions} {children : List ProofTree} {kids : List Sequent}

/-! ## What grows, whatever the slots -/

/-- A tree that the skeleton of `t` grows out of a new node on `s`. -/
def Regrown (t : ProofTree) (s : Sequent) (grown : ProofTree) : Prop :=
  ∃ slots id, grown = (regrow slots { id := id, sequent := s } t.skeleton).1

/-- The same, tree by tree. -/
inductive RegrownAmong : List ProofTree → List Sequent → List ProofTree → Prop
  | nil : RegrownAmong [] [] []
  | cons {t grown : ProofTree} {s : Sequent} {ts others : List ProofTree} {ss : List Sequent}
      (first : t.Regrown s grown) (rest : RegrownAmong ts ss others) :
      RegrownAmong (t :: ts) (s :: ss) (grown :: others)

/-- A comment is put back on a new node as it was. -/
theorem comment_restored (id : NodeId) (s : Sequent) (comment : String) :
    (Node.restored { id := id, sequent := s } comment).comment = comment := by
  rw [Node.comment_restored]
  split
  · rename_i h
    exact h.symm
  · rfl

/-- An open node grows into an open node with its comment. -/
theorem Regrown.of_open (h : (ProofTree.openNode node).Regrown s grown) :
    ∃ top : Node, grown = (ProofTree.openNode top).settled ∧ top.sequent = s ∧
      top.comment = node.comment := by
  obtain ⟨slots, id, rfl⟩ := h
  refine ⟨Node.restored { id := id, sequent := s } node.comment, ?_,
    Node.sequent_restored _ _, comment_restored _ _ _⟩
  rw [skeleton, regrow_none]

/-- Where the rule does not apply, the node stays open. -/
theorem Regrown.of_refused (h : (ProofTree.applied node rule skipped children).Regrown s grown)
    (hexpand : rule.expand s = none) :
    ∃ top : Node, grown = (ProofTree.openNode top).settled := by
  obtain ⟨slots, id, rfl⟩ := h
  refine ⟨Node.restored { id := id, sequent := s } node.comment, ?_⟩
  rw [skeleton, regrow_refused hexpand]

/-- Children grow one by one, on the sequents that the rule gives. -/
theorem regrownAmong_regrow (slots slots' : Slots) (hlength : children.length = kids.length) :
    RegrownAmong children kids
      (regrowAmong slots' (slots.openNodes kids).1 (children.map skeleton)).1 := by
  induction children generalizing kids slots slots' with
  | nil =>
      cases kids with
      | nil => exact .nil
      | cons k ks => cases hlength
  | cons c rest ih =>
      cases kids with
      | nil => cases hlength
      | cons k ks => exact .cons ⟨slots', _, rfl⟩ (ih _ _ (Nat.succ.inj hlength))

/-- Where the rule applies, its children grow on the child sequents. -/
theorem Regrown.of_applied (h : (ProofTree.applied node rule skipped children).Regrown s grown)
    (hexpand : rule.expand s = some (kids, skipped')) (hlength : children.length = kids.length) :
    ∃ (top : Node) (others : List ProofTree),
      grown = (ProofTree.applied top rule skipped' others).settled ∧ top.sequent = s ∧
        top.comment = node.comment ∧ RegrownAmong children kids others := by
  obtain ⟨slots, id, rfl⟩ := h
  refine ⟨Node.restored { id := id, sequent := s } node.comment, _, ?_,
    Node.sequent_restored _ _, comment_restored _ _ _,
    regrownAmong_regrow slots (slots.openNodes kids).2 hlength⟩
  rw [skeleton, skeletonAmong_eq, regrow_applied hexpand]

/-! ## Following -/

mutual

/-- Whether every recorded rule applies when the proof is replayed on the
    sequent. -/
def follows : ProofTree → Sequent → Bool
  | .openNode _, _ => true
  | .applied _ rule _ children, s =>
    match rule.expand s with
    | none => false
    | some (kids, _) => followsAmong children kids

/-- Whether subproofs follow, each from its own sequent. -/
def followsAmong : List ProofTree → List Sequent → Bool
  | t :: rest, s :: more => follows t s && followsAmong rest more
  | _, _ => true

end

/-- A rule that does not apply is not followed. -/
theorem follows_refused (h : rule.expand s = none) :
    (ProofTree.applied node rule skipped children).follows s = false := by
  rw [follows, h]

/-- Below a rule that applies, the subproofs have to be followed. -/
theorem follows_applied (h : rule.expand s = some (kids, skipped')) :
    (ProofTree.applied node rule skipped children).follows s = followsAmong children kids := by
  rw [follows, h]

/-- The rule of a node gives as many children on any sequent. -/
theorem Justified.length_eq (h : (ProofTree.applied node rule skipped children).Justified allowed)
    (hexpand : rule.expand s = some (kids, skipped')) : children.length = kids.length := by
  obtain ⟨-, recorded, -, hrecorded⟩ := h.step rule rfl
  rw [Rule.length_expand hexpand, ← Rule.length_expand hrecorded]
  exact (List.length_map sequent).symm

/-- Subproofs that are followed grow back as they are recorded, with their
    levels. -/
theorem RegrownAmong.of_follows {others : List ProofTree} (h : RegrownAmong children kids others)
    (hfollows : followsAmong children kids = true)
    (ih : ∀ c ∈ children, ∀ {s : Sequent} {grown : ProofTree}, c.Regrown s grown →
      c.follows s = true → grown.skeleton = c.skeleton ∧ grown.confidence = c.confidence) :
    others.map skeleton = children.map skeleton ∧
      others.map confidence = children.map confidence := by
  induction h with
  | nil => exact ⟨rfl, rfl⟩
  | @cons c grown s cs others ss first _ ihrest =>
      rw [followsAmong, Bool.and_eq_true] at hfollows
      obtain ⟨hskeleton, hconfidence⟩ := ih c List.mem_cons_self first hfollows.1
      obtain ⟨hskeletons, hconfidences⟩ :=
        ihrest hfollows.2 fun d hd => ih d (List.mem_cons_of_mem _ hd)
      simp only [List.map_cons, hskeleton, hconfidence, hskeletons, hconfidences, and_self]

/-- A replay that follows to the end grows the recorded proof. -/
theorem Regrown.of_follows (ht : t.Settled) (hjust : t.Everywhere (Justified allowed))
    (h : t.Regrown s grown) (hfollows : t.follows s = true) :
    grown.skeleton = t.skeleton ∧ grown.confidence = t.confidence := by
  induction t generalizing s grown with
  | openNode node =>
      obtain ⟨top, rfl, -, hcomment⟩ := h.of_open
      constructor
      · rw [skeleton_settled, skeleton, skeleton, hcomment]
      · rw [confidence_settled, ht.top, level, level, hcomment]
  | applied node rule skipped children ih =>
      cases hexpand : rule.expand s with
      -- a proof that follows is refused nowhere
      | none =>
          rw [follows_refused hexpand] at hfollows
          cases hfollows
      | some expanded =>
          obtain ⟨kids, skipped'⟩ := expanded
          rw [follows_applied hexpand] at hfollows
          obtain ⟨top, others, rfl, -, hcomment, hamong⟩ :=
            h.of_applied hexpand (hjust.top.length_eq hexpand)
          obtain ⟨hskeletons, hconfidences⟩ := hamong.of_follows hfollows
            fun c hc => ih c hc (ht.child c hc) (hjust.child c hc)
          constructor
          · rw [skeleton_settled, skeleton, skeleton, skeletonAmong_eq, skeletonAmong_eq, hcomment,
              hskeletons]
          · rw [confidence_settled, ht.top, level_applied, level_applied, hconfidences]

/-- An open node is not closed, with or without a comment. -/
theorem not_closed_openNode (node : Node) :
    (ProofTree.openNode node).settled.confidence.isClosed = false := by
  rw [confidence_settled, level]
  split <;> decide

/-- Subproofs that grow to closed ones were followed. -/
theorem RegrownAmong.follows_of_closed {others : List ProofTree}
    (h : RegrownAmong children kids others) (hclosed : ∀ c ∈ others, c.confidence.isClosed = true)
    (ih : ∀ c ∈ children, ∀ {s : Sequent} {grown : ProofTree}, c.Regrown s grown →
      grown.confidence.isClosed = true → c.follows s = true) :
    followsAmong children kids = true := by
  induction h with
  | nil => rfl
  | @cons c grown s cs others ss first _ ihrest =>
      rw [followsAmong, Bool.and_eq_true]
      refine ⟨ih c List.mem_cons_self first (hclosed grown List.mem_cons_self), ?_⟩
      exact ihrest (fun d hd => hclosed d (List.mem_cons_of_mem _ hd))
        fun d hd => ih d (List.mem_cons_of_mem _ hd)

/-- A replay that is closed has followed to the end: where a rule does not
    apply a node stays open. -/
theorem Regrown.follows_of_closed (hjust : t.Everywhere (Justified allowed))
    (h : t.Regrown s grown) (hclosed : grown.confidence.isClosed = true) : t.follows s = true := by
  induction t generalizing s grown with
  | openNode node => rfl
  | applied node rule skipped children ih =>
      cases hexpand : rule.expand s with
      | none =>
          obtain ⟨top, rfl⟩ := h.of_refused hexpand
          rw [not_closed_openNode] at hclosed
          cases hclosed
      | some expanded =>
          obtain ⟨kids, skipped'⟩ := expanded
          obtain ⟨top, others, rfl, -, -, hamong⟩ :=
            h.of_applied hexpand (hjust.top.length_eq hexpand)
          rw [confidence_settled, Confidence.isClosed, decide_eq_true_eq,
            lt_level_applied] at hclosed
          rw [follows_applied hexpand]
          refine hamong.follows_of_closed (fun c hc => decide_eq_true (hclosed.2 c hc)) ?_
          exact fun c hc => ih c hc (hjust.child c hc)

/-- The answer of a replay. -/
theorem Regrown.isClosed_eq (ht : t.Settled) (hjust : t.Everywhere (Justified allowed))
    (h : t.Regrown s grown) :
    grown.confidence.isClosed = (t.follows s && t.confidence.isClosed) := by
  cases hfollows : t.follows s with
  | true => rw [(h.of_follows ht hjust hfollows).2, Bool.true_and]
  | false =>
      rw [Bool.false_and, Bool.eq_false_iff]
      intro hclosed
      rw [h.follows_of_closed hjust hclosed] at hfollows
      cases hfollows

end ProofTree

namespace Forest

/-! ## Replays on new trees -/

/-- The tree of a reachable forest: its levels are right, its rules give its
    children, and its skeleton is that of its root. -/
theorem ReachableWith.of_tree? {allowed : Rule → Prop} {f : Forest} (hf : f.ReachableWith allowed)
    {tree : TreeId} {t : Tree} (h : f.tree? tree = some t) :
    t.proof.Settled ∧ t.proof.Everywhere (ProofTree.Justified allowed) ∧
      f.skeleton t.proof.id = .ok t.proof.skeleton := by
  obtain ⟨-, hmem⟩ := mem_bench_of_tree? h []
  have hall := Bench.mem_all_of_mem hmem
  refine ⟨hf.wf.settled _ hall, hf.wf.justified _ hall, ?_⟩
  have hfind : t.proof.find? t.proof.id = some t.proof := by
    rw [ProofTree.find?_eq, if_pos rfl]
  obtain ⟨u, -, located⟩ := exists_locate? (hf.wf.locate?_eq hmem hfind)
  rw [skeleton, nodeOrError_of_locate? located]
  rfl

/-- Whether a tree is closed is a matter of the level at its root. -/
theorem isClosed_of_tree? {f : Forest} {tree : TreeId} {t : Tree} (h : f.tree? tree = some t) :
    f.isClosed tree = .ok t.proof.confidence.isClosed := by
  rw [isClosed, confidence, treeOrError, h]
  rfl

/-- A proof replayed on a new tree of any reachable forest. -/
theorem Reachable.reuse_createTree {g : Forest} (hg : g.Reachable) {s : Sequent}
    (hs : s.WellTyped) (p : ProofTree) (origin : Option String) :
    ∃ root grown, (g.createTree s origin).2.root (g.createTree s origin).1 = .ok root ∧
      p.Regrown s grown ∧
      ((g.createTree s origin).2.reuse root p.skeleton).1 = .ok grown.confidence.isClosed ∧
      ((g.createTree s origin).2.reuse root p.skeleton).2.skeleton root = .ok grown.skeleton ∧
      ((g.createTree s origin).2.reuse root p.skeleton).2.proofDependencies
        (g.createTree s origin).1 = .ok grown.dependencies := by
  obtain ⟨root, slots, hroot, hclosed, hskeleton, hdeps⟩ :=
    Forest.reuse_createTree hg.wf hs p.skeleton.every_true origin
  exact ⟨root, _, hroot, ⟨slots, root, rfl⟩, hclosed, hskeleton, hdeps⟩

end Forest

end SequentProver
