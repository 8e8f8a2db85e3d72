import SequentProver.Proofs.Following
import SequentProver.Proofs.Links
import SequentProver.Proofs.Origins

/-! # Recording and replaying

    The skeleton of a node records the rules and the comments below it.  A
    rule does not look at the origins of hypotheses, so on a sequent that is
    the same as the recorded one every rule applies again and gives children
    that are the same.  What a replay grows there agrees with the recorded
    proof node by node, and can be recorded again.

    Route:
    1. agreement of two proofs, child by child, and what follows from it;
    2. what a skeleton grows on a sequent that is the same;
    3. a replay on a new tree, with the recorded node left where it was. -/

namespace SequentProver

namespace ProofTree

variable {allowed : Rule → Prop} {t u grown : ProofTree} {s : Sequent}
  {ts us others : List ProofTree} {kids : List Sequent}

/-! ## Agreement -/

/-- Siblings agree if they do one by one. -/
theorem agreesAmong_iff :
    agreesAmong ts us = true ↔ List.Forall₂ (fun t u => t.agrees u = true) ts us := by
  induction ts generalizing us with
  | nil => cases us <;> simp [agreesAmong]
  | cons t rest ih =>
      cases us with
      | nil => simp [agreesAmong]
      | cons u more => rw [agreesAmong, Bool.and_eq_true, List.forall₂_cons, ih]

/-- What agreeing children have in common, list by list. -/
theorem map_eq_of_agree {α : Type} {view : ProofTree → α}
    (h : List.Forall₂ (fun t u => t.agrees u = true) ts us)
    (hview : ∀ t ∈ ts, ∀ {u : ProofTree}, t.agrees u = true → view t = view u) :
    ts.map view = us.map view := by
  induction h with
  | nil => rfl
  | @cons t u ts us first _ ih =>
      rw [List.map_cons, List.map_cons, hview t List.mem_cons_self first]
      rw [ih fun t ht => hview t (List.mem_cons_of_mem _ ht)]

/-- Proofs that agree have one level at the top. -/
theorem confidence_of_agrees (h : t.agrees u = true) : t.confidence = u.confidence := by
  cases t <;> cases u <;>
    simp only [agrees, nodeAgrees, Bool.and_eq_true, decide_eq_true_eq, Bool.false_eq_true] at h
  · exact h.2
  · exact h.1.1.2

/-- Proofs that agree have one skeleton. -/
theorem skeleton_of_agrees (h : t.agrees u = true) : t.skeleton = u.skeleton := by
  induction t generalizing u with
  | openNode node =>
      cases u with
      | openNode node' =>
          simp only [agrees, nodeAgrees, Bool.and_eq_true, decide_eq_true_eq] at h
          rw [skeleton, skeleton, h.1.2]
      | applied _ _ _ _ => cases h
  | applied node rule skipped children ih =>
      cases u with
      | openNode _ => cases h
      | applied node' rule' skipped' children' =>
          simp only [agrees, nodeAgrees, Bool.and_eq_true, decide_eq_true_eq, agreesAmong_iff] at h
          obtain ⟨⟨⟨⟨-, hcomment⟩, -⟩, rfl⟩, hchildren⟩ := h
          rw [skeleton, skeleton, skeletonAmong_eq, skeletonAmong_eq, hcomment,
            map_eq_of_agree hchildren ih]

/-! ## Growing the recorded proof -/

/-- Subproofs that grow on the same sequents agree with those recorded. -/
theorem RegrownAmong.agree (h : RegrownAmong ts kids others)
    (hsame : List.Forall₂ (fun k k' => k.sameAs k' = true) (ts.map sequent) kids)
    (ih : ∀ c ∈ ts, ∀ {s : Sequent} {grown : ProofTree}, s.sameAs c.sequent = true →
      c.Regrown s grown → grown.agrees c = true) :
    List.Forall₂ (fun t u => t.agrees u = true) others ts := by
  induction h with
  | nil => exact .nil
  | @cons c grown s cs others ss first _ ihrest =>
      rw [List.map_cons, List.forall₂_cons] at hsame
      obtain ⟨hs, hrest⟩ := hsame
      have hs' : s.sameAs c.sequent = true := Sequent.sameAs_trans s.sameAs_refl hs
      refine .cons (ih c List.mem_cons_self hs' first) (ihrest hrest ?_)
      intro d hd
      exact ih d (List.mem_cons_of_mem _ hd)

/-- What a skeleton grows on a sequent that is the same agrees with the
    recorded proof. -/
theorem Regrown.agrees (ht : t.Settled) (hjust : t.Everywhere (Justified allowed))
    (hs : s.sameAs t.sequent = true) (h : t.Regrown s grown) : grown.agrees t = true := by
  induction t generalizing s grown with
  | openNode node =>
      obtain ⟨top, rfl, rfl, hcomment⟩ := h.of_open
      have hlevel : (ProofTree.openNode top).level = node.confidence := by
        rw [level, hcomment]
        exact ht.top.symm
      show nodeAgrees { top with confidence := (ProofTree.openNode top).level } node = true
      rw [nodeAgrees, Bool.and_eq_true, Bool.and_eq_true]
      exact ⟨⟨hs, decide_eq_true hcomment⟩, decide_eq_true hlevel⟩
  | applied node rule skipped children ih =>
      -- the rule was applied to a sequent that is the same as `s`
      obtain ⟨-, recorded, hrecorded, hexpand⟩ := hjust.top.step rule rfl
      obtain ⟨kids, hexpand', hkids⟩ :=
        Rule.expand_of_sameAs (Sequent.sameAs_trans hrecorded hs) hexpand
      obtain ⟨top, others, rfl, rfl, hcomment, hamong⟩ :=
        h.of_applied hexpand' (hjust.top.length_eq hexpand')
      have hothers := hamong.agree hkids fun c hc => ih c hc (ht.child c hc) (hjust.child c hc)
      have hlevel : (ProofTree.applied top rule skipped others).level = node.confidence := by
        rw [level_applied, map_eq_of_agree hothers fun _ _ => confidence_of_agrees, ← level_applied]
        exact ht.top.symm
      show (nodeAgrees { top with confidence := (ProofTree.applied top rule skipped others).level }
        node && decide (rule = rule) && agreesAmong others children) = true
      rw [nodeAgrees, Bool.and_eq_true, Bool.and_eq_true, Bool.and_eq_true, Bool.and_eq_true]
      exact ⟨⟨⟨⟨hs, decide_eq_true hcomment⟩, decide_eq_true hlevel⟩, decide_eq_true rfl⟩,
        agreesAmong_iff.mpr hothers⟩

end ProofTree

namespace Forest

/-! ## On a new tree -/

variable {allowed : Rule → Prop} {f g : Forest} {tree : TreeId} {n root : NodeId}
  {p grown : ProofTree} {s : Sequent}

/-- A forest with one tree more has every node where it was. -/
theorem node?_of_appended (h : (f.bench []).Wf allowed) (h' : (g.bench []).Wf allowed)
    (hproofs : (g.bench []).proofs = (f.bench []).proofs ++ [(tree, grown)])
    (hnode : f.node? n = some p) : g.node? n = some p := by
  obtain ⟨t, ht, hfind⟩ := (node?_eq_some h).mp hnode
  have hmem : (t.id, t.proof) ∈ (g.bench []).proofs := by
    rw [hproofs]
    exact List.mem_append_left _ (List.mem_map.mpr ⟨t, ht, rfl⟩)
  exact node?_of_mem h' hmem hfind

/-- The new tree is there, and none of its nodes was there before. -/
theorem node?_appended (h : (f.bench []).Wf allowed) (h' : (g.bench []).Wf allowed)
    (hproofs : (g.bench []).proofs = (f.bench []).proofs ++ [(tree, grown)]) :
    g.node? grown.id = some grown ∧ f.node? grown.id = none := by
  have hmem : (tree, grown) ∈ (g.bench []).proofs := by
    rw [hproofs]
    exact List.mem_append_right _ (List.mem_singleton.mpr rfl)
  have located := h'.locate?_eq hmem grown.find?_id
  constructor
  · exact node?_of_mem h' hmem grown.find?_id
  · rw [Option.eq_none_iff_forall_ne_some]
    intro q hq
    obtain ⟨t, ht, hfind⟩ := (node?_eq_some h).mp hq
    have hold : (t.id, t.proof) ∈ (f.bench []).proofs := List.mem_map.mpr ⟨t, ht, rfl⟩
    -- the node would be in two trees, and tree handles are unique
    have located' := h'.locate?_eq (hproofs ▸ List.mem_append_left _ hold) hfind
    have hid : tree = t.id := congrArg Prod.fst (Option.some.inj (located.symm.trans located'))
    have hnodup := h'.tree_nodup
    rw [hproofs, List.map_append, List.nodup_append] at hnodup
    exact hnodup.2.2 t.id (List.mem_map.mpr ⟨_, hold, rfl⟩) tree List.mem_cons_self hid.symm

/-- Replaying the skeleton of a node on a sequent that is the same as the
    node's, at the root of a new tree, answers whether the node is closed and
    grows a proof that agrees with the node's and has its skeleton. -/
theorem replay_inverts_recording (hf : f.Reachable) (hnode : f.node? n = some p)
    (hs : s.sameAs p.sequent = true) (origin : Option String) :
    ∃ root skeleton, (f.createTree s origin).2.root (f.createTree s origin).1 = .ok root ∧
      f.node? root = none ∧ f.skeleton n = .ok skeleton ∧
      let replayed := (f.createTree s origin).2.reuse root skeleton
      replayed.1 = .ok p.confidence.isClosed ∧ replayed.2.node? n = some p ∧
      replayed.2.deepEquals root n = true ∧ replayed.2.skeleton root = .ok skeleton := by
  obtain ⟨t, ht, hfind⟩ := (node?_eq_some hf.wf).mp hnode
  have hall : t.proof ∈ (f.bench []).all := Bench.mem_all_of_mem (List.mem_map.mpr ⟨t, ht, rfl⟩)
  have hsettled : p.Settled := (hf.wf.settled _ hall).find? hfind
  have hjust : p.Everywhere (ProofTree.Justified _) := (hf.wf.justified _ hall).find? hfind
  have hwell : s.WellTyped := Sequent.WellTyped.of_sameAs hs hjust.top.wellTyped
  obtain ⟨root, slots, hroot, hclosed, hwf, hproofs⟩ :=
    reuse_createTree_proofs hf.wf hwell p.skeleton.every_true origin
  -- the new tree agrees with the recorded one, and the rest is read off that
  have hagrees := ProofTree.Regrown.agrees hsettled hjust hs ⟨slots, root, rfl⟩
  obtain ⟨hgrown, hfresh⟩ := node?_appended hf.wf hwf hproofs
  rw [ProofTree.id_regrow] at hgrown hfresh
  have hkept := node?_of_appended hf.wf hwf hproofs hnode
  refine ⟨root, p.skeleton, hroot, hfresh, ?_, ?_, hkept, ?_, ?_⟩
  · rw [skeleton, nodeOrError, hnode]
    rfl
  · rw [hclosed, ProofTree.confidence_of_agrees hagrees]
  · rw [deepEquals, hgrown, hkept]
    exact hagrees
  · rw [skeleton, nodeOrError, hgrown]
    exact congrArg Except.ok (ProofTree.skeleton_of_agrees hagrees)

/-- A proof that was moved to its place, replayed on a sequent with its
    hypothesis derived instead of given. -/
theorem moved_replayed :
    ∃ p root skeleton, moved.node? ⟨0, 0⟩ = some p ∧
      let s : Sequent := ⟨.empty, SortedBy.ofList [⟨.top, .derived, .plain⟩], .bottom⟩
      s ≠ p.sequent ∧ (moved.createTree s none).2.root (moved.createTree s none).1 = .ok root ∧
      let replayed := (moved.createTree s none).2.reuse root skeleton
      moved.skeleton ⟨0, 0⟩ = .ok skeleton ∧ replayed.1 = .ok false ∧
        replayed.2.deepEquals root ⟨0, 0⟩ = true ∧ replayed.2.skeleton root = .ok skeleton := by
  let p := (moved.node? ⟨0, 0⟩).get (by decide +kernel)
  have hnode : moved.node? ⟨0, 0⟩ = some p := (Option.some_get _).symm
  obtain ⟨root, skeleton, hroot, -, hskeleton, hclosed, -, hagrees, hagain⟩ :=
    replay_inverts_recording (moved_reachable trivial) hnode
      (s := ⟨.empty, SortedBy.ofList [⟨.top, .derived, .plain⟩], .bottom⟩) (by decide +kernel) none
  have hopen : p.confidence.isClosed = false := by decide +kernel
  exact ⟨p, root, skeleton, hnode, by decide +kernel, hroot, hskeleton, hopen ▸ hclosed, hagrees,
    hagain⟩

end Forest

end SequentProver
