import SequentProver.Proofs.Arena.Refinement

/-! # Steps and replays on an arena

    Steps with reasoners and replays of skeletons are made of rules and
    comments.  On an arena that stores a forest they follow the forest, so
    every operation does.

    Route:
    1. steps;
    2. reuses of recorded rules, by induction on the skeleton;
    3. rebuilds, which may ask reasoners again;
    4. `Op.onArena`, one operation. -/

namespace SequentProver.Arena

variable {allowed : Rule → Prop} {a : Arena} {f : Forest} {n : NodeId}

/-! ## Looking up -/

section Lookup

variable (h : a.Mirrors f) (hf : (f.bench []).Wf allowed)
include h

/-- What is stored for a node that the forest knows. -/
theorem Mirrors.data?_of_node? {p : ProofTree} (hnode : f.node? n = some p) :
    ∃ tree parent, f.treeOf n = .ok tree ∧ a.data? n = some (p.stored tree parent) := by
  obtain ⟨⟨t, q⟩, located, rfl⟩ := Option.map_eq_some_iff.mp hnode
  obtain ⟨parent, hdata⟩ := h.exists_data? located
  refine ⟨t.id, parent, ?_, hdata⟩
  rw [Forest.treeOf, located]

include hf

/-- Where the forest has no node, nothing is stored. -/
theorem Mirrors.data?_of_no_node (hnode : f.node? n = none) : a.data? n = none :=
  h.data?_eq_none hf (Option.map_eq_none_iff.mp hnode)

/-- Children are listed alike. -/
theorem Mirrors.childIds (n : NodeId) : a.childIds n = f.childIds n := by
  rw [Arena.childIds, Forest.childIds]
  cases hnode : f.node? n with
  | none =>
      rw [h.data?_of_no_node hf hnode]
      rfl
  | some p =>
      obtain ⟨tree, parent, -, hdata⟩ := h.data?_of_node? hnode
      rw [hdata]
      rfl

/-- Whether a node is closed is answered alike. -/
theorem Mirrors.nodeClosed (n : NodeId) : a.nodeClosed n = f.nodeClosed n := by
  rw [Arena.nodeClosed, Forest.nodeClosed]
  cases hnode : f.node? n with
  | none =>
      rw [h.data?_of_no_node hf hnode]
      rfl
  | some p =>
      obtain ⟨tree, parent, -, hdata⟩ := h.data?_of_node? hnode
      rw [hdata]
      rfl

end Lookup

/-! ## Steps -/

/-- A step asks the reasoner on the stored sequent and applies the rule that it
    proposes. -/
theorem applyReasoner_follows {reasoner : Reasoner} (h : a.Mirrors f)
    (hf : (f.bench []).Wf allowed) (hreasoner : reasoner.Proposes allowed) (n : NodeId)
    (input : Input) (monitor : Monitor) :
    Follows (applyReasoner n reasoner input monitor) a
      (.ok ((f.applyReasoner n reasoner input monitor).outcome,
        (f.applyReasoner n reasoner input monitor).monitor),
        (f.applyReasoner n reasoner input monitor).forest) := by
  rw [Forest.applyReasoner]
  cases hnode : f.node? n with
  | none =>
      refine ⟨a, ?_, h⟩
      rw [applyReasoner, Work.ask_bind, h.data?_of_no_node hf hnode]
      rfl
  | some p =>
      obtain ⟨tree, parent, -, hdata⟩ := h.data?_of_node? hnode
      have hrule : (p.stored tree parent).rule.isNone = p.isOpen := rfl
      have hsequent : (p.stored tree parent).sequent = p.sequent := rfl
      refine .asked hdata ?_
      dsimp only
      rw [hrule, hsequent]
      -- past this point both ask the same monitor and the same reasoner
      cases hopen : p.isOpen with
      | false => exact ⟨a, rfl, h⟩
      | true =>
          rw [if_pos rfl, if_pos rfl]
          obtain ⟨canceled, watched⟩ := monitor.poll
          cases canceled with
          | true => exact ⟨a, rfl, h⟩
          | false =>
              dsimp only
              rw [if_neg Bool.false_ne_true, if_neg Bool.false_ne_true]
              cases hrun : reasoner.apply p.sequent input watched with
              | mk answer watched' =>
                  cases answer with
                  | error failure => exact ⟨a, rfl, h⟩
                  -- the rule is allowed, since the reasoner proposes allowed rules only
                  | ok rule =>
                      obtain ⟨b, happlied, hb⟩ :=
                        applyRule_follows h hf (hreasoner _ _ _ _ _ hrun) n
                      exact ⟨b, Work.bind_ok (Work.attempt_of happlied), hb⟩

/-- A recorded comment is put back where there is one. -/
theorem restoreComment_follows (h : a.Mirrors f) (hf : (f.bench []).Wf allowed) (n : NodeId)
    (comment : String) : Follows (restoreComment n comment) a (f.restoreComment n comment) := by
  rw [restoreComment, Forest.restoreComment]
  by_cases hempty : comment = ""
  · rw [if_pos hempty, if_pos hempty]
    exact ⟨a, rfl, h⟩
  · rw [if_neg hempty, if_neg hempty]
    exact setComment_follows h hf n comment

/-- A rule that does not apply is passed over by both. -/
theorem tryRule_follows {rule : Rule} (h : a.Mirrors f) (hf : (f.bench []).Wf allowed)
    (hrule : allowed rule) (n : NodeId) : Follows (tryRule n rule) a (f.tryRule n rule) := by
  have happlied := applyRule_follows h hf hrule n
  rw [Forest.tryRule]
  cases hrun : f.applyRule n rule with
  | mk answer g =>
      rw [hrun] at happlied
      refine happlied.attempt.andThen fun b hb => ?_
      cases answer with
      | ok _ => exact ⟨b, rfl, hb⟩
      | error e => cases e <;> exact ⟨b, rfl, hb⟩

/-- A recorded rule is tried, and the answer says whether it applies. -/
theorem reuseRule_follows {rule : Rule} (h : a.Mirrors f) (hf : (f.bench []).Wf allowed)
    (hrule : allowed rule) (n : NodeId) : Follows (reuseRule n rule) a (f.reuseRule n rule) := by
  rw [Forest.reuseRule, Forest.nodeOrError]
  cases hnode : f.node? n with
  | none => exact ⟨a, Work.bind_error (data_error (h.data?_of_no_node hf hnode)), h⟩
  | some p =>
      obtain ⟨tree, parent, -, hdata⟩ := h.data?_of_node? hnode
      refine .of_eq (Work.bind_ok (data_ok hdata)) ?_
      have hopen : (p.stored tree parent).rule.isNone = p.isOpen := rfl
      dsimp only
      rw [hopen]
      cases p.isOpen with
      | true => exact tryRule_follows h hf hrule n
      | false => exact ⟨a, rfl, h⟩

/-! ## Reusing recorded rules -/

/-- Skeletons at siblings, one after the other, each on what the ones before
    it left. -/
theorem reuseAmong_follows {children : List Skeleton} (hchildren : ∀ c ∈ children, c.Every allowed)
    (ih : ∀ c ∈ children, ∀ {a : Arena} {f : Forest}, a.Mirrors f → (f.bench []).Wf allowed →
      ∀ n, Follows (reuseNode n c) a (f.reuseNode n c))
    (h : a.Mirrors f) (hf : (f.bench []).Wf allowed) (nodes : List NodeId) :
    Follows (reuseAmong nodes children) a (f.reuseAmong nodes children) := by
  -- a proof with more children than the node, or fewer, is replayed as far as both go
  induction children generalizing a f nodes with
  | nil => cases nodes <;> exact ⟨a, rfl, h⟩
  | cons s rest ihrest =>
      cases nodes with
      | nil => exact ⟨a, rfl, h⟩
      | cons node nodes =>
          obtain ⟨hs, hrest⟩ := List.forall_mem_cons.mp hchildren
          have hnode := ih s List.mem_cons_self h hf node
          have hwf := hf.moves (Forest.reuseNode_moves hf hs node)
          rw [reuseAmong, Forest.reuseAmong]
          cases hrun : f.reuseNode node s with
          | mk answer g =>
              rw [hrun] at hnode hwf
              -- the first failure ends the replay, in the state that it left
              cases answer with
              | error e => exact hnode.refused
              | ok _ =>
                  refine hnode.andThen fun b hb => ?_
                  exact ihrest hrest (fun c hc => ih c (List.mem_cons_of_mem _ hc)) hb hwf nodes

/-- Replaying recorded rules, by induction on the skeleton. -/
theorem reuseNode_follows {skeleton : Skeleton} (hskeleton : skeleton.Every allowed)
    (h : a.Mirrors f) (hf : (f.bench []).Wf allowed) (n : NodeId) :
    Follows (reuseNode n skeleton) a (f.reuseNode n skeleton) := by
  induction hskeleton generalizing a f n with
  | @mk comment rule children top below ih =>
      have hcomment := restoreComment_follows h hf n comment
      have hwf := hf.moves (Forest.Replays.moves hf (Forest.restoreComment_replays n comment))
      rw [reuseNode.eq_def, Forest.reuseNode]
      cases hrun : f.restoreComment n comment with
      | mk answer g =>
          rw [hrun] at hcomment hwf
          cases answer with
          | error e => exact hcomment.refused
          | ok _ =>
              refine hcomment.andThen fun b hb => ?_
              cases rule with
              | none => exact ⟨b, rfl, hb⟩
              | some rule =>
                  have hrule := reuseRule_follows hb hwf (top rule rfl) n
                  have hwf' := hwf.moves
                    (Forest.Replays.moves hwf (Forest.reuseRule_replays (top rule rfl) n))
                  dsimp only
                  cases hrun' : g.reuseRule n rule with
                  | mk answer' g' =>
                      rw [hrun'] at hrule hwf'
                      cases answer' with
                      | error e => exact hrule.refused
                      | ok applied =>
                          refine hrule.andThen fun c hc => ?_
                          cases applied with
                          | false => exact ⟨c, rfl, hc⟩
                          | true =>
                              -- the children that the rule has made
                              refine .asked (hc.childIds hwf' n) ?_
                              exact reuseAmong_follows below (fun c hc _ _ => ih c hc) hc hwf' _

/-- The whole of a replay is one batch. -/
theorem reuse_follows {skeleton : Skeleton} (hskeleton : skeleton.Every allowed)
    (h : a.Mirrors f) (hf : (f.bench []).Wf allowed) (n : NodeId) :
    Follows (reuse n skeleton) a (f.reuse n skeleton) := by
  have hwf := hf.moves (Forest.reuse_moves hf hskeleton n)
  rw [Forest.reuse, Forest.treeOf] at hwf ⊢
  cases hlocate : f.locate? n with
  | none => exact ⟨a, Work.bind_error (data_error (h.data?_eq_none hf hlocate)), h⟩
  | some found =>
      obtain ⟨t, p⟩ := found
      rw [hlocate] at hwf
      refine inBatchAt_follows h hf hlocate hwf fun b hb => ?_
      have hbegun := wf_beginBatch hf t.id
      have hreused := reuseNode_follows hskeleton hb hbegun n
      have hwf' := hbegun.moves (Forest.reuseNode_moves hbegun hskeleton n)
      -- whether the node is closed is asked of the state after the replay, inside the batch
      cases hrun : (f.beginBatch t.id).reuseNode n skeleton with
      | mk answer g =>
          rw [hrun] at hreused hwf'
          cases answer with
          | error e => exact hreused.refused
          | ok _ =>
              refine hreused.andThen fun c hc => ⟨c, ?_, hc⟩
              rw [Work.ask, hc.nodeClosed hwf']

/-! ## Rebuilding with reasoners -/

/-- What is only done if it is asked for keeps the forest in order. -/
theorem wf_optional {α : Type} {out : α × Forest} {x : α} (hf : (f.bench []).Wf allowed)
    (hout : (out.2.bench []).Wf allowed) (wanted : Bool) :
    ((if wanted then out else (x, f)).2.bench []).Wf allowed := by
  cases wanted with
  | true => exact hout
  | false => exact hf

/-- Asking a recorded reasoner again. -/
theorem rerun_follows {registry : Registry} (hregistry : registry.Proposes allowed)
    (h : a.Mirrors f) (hf : (f.bench []).Wf allowed) (monitor : Monitor) (n : NodeId)
    (rule : Rule) : Follows (rerun registry monitor n rule) a
      (.ok ((Forest.rerun registry ⟨f, monitor⟩ n rule).1,
        (Forest.rerun registry ⟨f, monitor⟩ n rule).2.monitor),
        (Forest.rerun registry ⟨f, monitor⟩ n rule).2.forest) := by
  rw [rerun, Forest.rerun]
  dsimp only
  -- the monitor is asked before the registry is
  obtain ⟨canceled, watched⟩ := monitor.poll
  cases canceled with
  | true => exact ⟨a, rfl, h⟩
  | false =>
      dsimp only
      rw [if_neg Bool.false_ne_true, if_neg Bool.false_ne_true]
      cases hfind : registry.find? rule.reasoner with
      | none => exact ⟨a, rfl, h⟩
      | some reasoner =>
          have hstep := applyReasoner_follows h hf (hregistry _ _ hfind) n rule.input watched
          dsimp only
          cases hrun : f.applyReasoner n reasoner rule.input watched with
          | mk outcome g watched' =>
              rw [hrun] at hstep
              refine hstep.andThen fun b hb => ?_
              cases outcome with
              | ok _ => exact ⟨b, rfl, hb⟩
              -- a failure of the reasoner is an answer here, not a refusal
              | error e =>
                  cases e with
                  | reasoner failure => exact ⟨b, rfl, hb⟩
                  | tree e => cases e <;> exact ⟨b, rfl, hb⟩

/-- One node of a rebuild: the recorded rule, its reasoner, or neither. -/
theorem rebuildStep_follows {registry : Registry} {rule : Rule}
    (hregistry : registry.Proposes allowed) (hrule : allowed rule) (h : a.Mirrors f)
    (hf : (f.bench []).Wf allowed) (config : ReplayConfig) (monitor : Monitor) (n : NodeId) :
    Follows (rebuildStep registry config monitor n rule) a
      (.ok ((Forest.rebuildStep registry config ⟨f, monitor⟩ n rule).1,
        (Forest.rebuildStep registry config ⟨f, monitor⟩ n rule).2.monitor),
        (Forest.rebuildStep registry config ⟨f, monitor⟩ n rule).2.forest) := by
  rw [Forest.rebuildStep, Forest.nodeOrError]
  cases hnode : f.node? n with
  | none =>
      refine ⟨a, ?_, h⟩
      rw [rebuildStep, Work.ask_bind, h.data?_of_no_node hf hnode]
      rfl
  | some p =>
      obtain ⟨tree, parent, -, hdata⟩ := h.data?_of_node? hnode
      have hopen : (p.stored tree parent).rule.isNone = p.isOpen := rfl
      refine .asked hdata ?_
      dsimp only
      rw [hopen]
      cases p.isOpen with
      | false => exact ⟨a, rfl, h⟩
      | true =>
          rw [if_pos rfl, if_pos rfl]
          -- trying the stored rule may have moved the forest before the reasoner runs
          have hmoved : ((f.tryRule n rule).2.bench []).Wf allowed := by
            rw [Forest.tryRule_forest]
            exact hf.moves (Forest.applyRule_moves hf hrule n)
          have htry := Follows.optional (x := false) h (tryRule_follows h hf hrule n)
            config.reuseFirst
          have hwf := wf_optional (x := .ok false) hf hmoved config.reuseFirst
          cases hrun : (if config.reuseFirst then f.tryRule n rule else (.ok false, f)) with
          | mk answer g =>
              rw [hrun] at htry hwf
              refine htry.attempt.andThen fun b hb => ?_
              cases answer with
              | error e => exact ⟨b, rfl, hb⟩
              | ok applied =>
                  -- only a stored rule that did not apply leads to the reasoner
                  cases applied with
                  | true => exact ⟨b, rfl, hb⟩
                  | false =>
                      dsimp only
                      cases config.rerunReasoners with
                      | true => exact rerun_follows hregistry hb hwf monitor n rule
                      | false => exact ⟨b, rfl, hb⟩

/-- Skeletons at siblings, one after the other, each on what the ones before
    it left. -/
theorem rebuildAmong_follows {registry : Registry} {config : ReplayConfig}
    {children : List Skeleton} (hregistry : registry.Proposes allowed)
    (hchildren : ∀ c ∈ children, c.Every allowed)
    (ih : ∀ c ∈ children, ∀ {a : Arena} {f : Forest}, a.Mirrors f → (f.bench []).Wf allowed →
      ∀ monitor n, Follows (rebuildNode registry config monitor n c) a
        (.ok ((Forest.rebuildNode registry config ⟨f, monitor⟩ n c).1,
          (Forest.rebuildNode registry config ⟨f, monitor⟩ n c).2.monitor),
          (Forest.rebuildNode registry config ⟨f, monitor⟩ n c).2.forest))
    (h : a.Mirrors f) (hf : (f.bench []).Wf allowed) (monitor : Monitor) (nodes : List NodeId) :
    Follows (rebuildAmong registry config monitor nodes children) a
      (.ok ((Forest.rebuildAmong registry config ⟨f, monitor⟩ nodes children).1,
        (Forest.rebuildAmong registry config ⟨f, monitor⟩ nodes children).2.monitor),
        (Forest.rebuildAmong registry config ⟨f, monitor⟩ nodes children).2.forest) := by
  -- the monitor is handed from child to child
  induction children generalizing a f monitor nodes with
  | nil => cases nodes <;> exact ⟨a, rfl, h⟩
  | cons s rest ihrest =>
      cases nodes with
      | nil => exact ⟨a, rfl, h⟩
      | cons node nodes =>
          obtain ⟨hs, hrest⟩ := List.forall_mem_cons.mp hchildren
          have hnode := ih s List.mem_cons_self h hf monitor node
          have hwf := hf.moves (Forest.Replays.moves hf
            (Forest.rebuildNode_replays hregistry hs config ⟨f, monitor⟩ node))
          rw [rebuildAmong, Forest.rebuildAmong]
          cases hrun : Forest.rebuildNode registry config ⟨f, monitor⟩ node s with
          | mk answer w =>
              rw [hrun] at hnode hwf
              refine hnode.andThen fun b hb => ?_
              cases answer with
              | error e => exact ⟨b, rfl, hb⟩
              | ok _ =>
                  exact ihrest hrest (fun c hc => ih c (List.mem_cons_of_mem _ hc)) hb hwf
                    w.monitor nodes

/-- Replaying with reasoners, by induction on the skeleton. -/
theorem rebuildNode_follows {registry : Registry} {skeleton : Skeleton}
    (hregistry : registry.Proposes allowed) (hskeleton : skeleton.Every allowed)
    (h : a.Mirrors f) (hf : (f.bench []).Wf allowed) (config : ReplayConfig) (monitor : Monitor)
    (n : NodeId) : Follows (rebuildNode registry config monitor n skeleton) a
      (.ok ((Forest.rebuildNode registry config ⟨f, monitor⟩ n skeleton).1,
        (Forest.rebuildNode registry config ⟨f, monitor⟩ n skeleton).2.monitor),
        (Forest.rebuildNode registry config ⟨f, monitor⟩ n skeleton).2.forest) := by
  induction hskeleton generalizing a f monitor n with
  | @mk comment rule children top below ih =>
      have hmoved := hf.moves (Forest.Replays.moves hf (Forest.restoreComment_replays n comment))
      have hcomment := Follows.optional (x := ()) h (restoreComment_follows h hf n comment)
        config.keepComments
      have hwf := wf_optional (x := .ok ()) hf hmoved config.keepComments
      rw [rebuildNode.eq_def, Forest.rebuildNode]
      dsimp only
      cases hrun : (if config.keepComments then f.restoreComment n comment else (.ok (), f)) with
      | mk answer g =>
          rw [hrun] at hcomment hwf
          refine hcomment.attempt.andThen fun b hb => ?_
          cases answer with
          | error e => exact ⟨b, rfl, hb⟩
          | ok _ =>
              cases rule with
              | none => exact ⟨b, rfl, hb⟩
              | some rule =>
                  have hstep := rebuildStep_follows hregistry (top rule rfl) hb hwf config monitor n
                  have hwf' := hwf.moves (Forest.Replays.moves hwf (Forest.rebuildStep_replays
                    hregistry (top rule rfl) config ⟨g, monitor⟩ n))
                  dsimp only
                  cases hrun' : Forest.rebuildStep registry config ⟨g, monitor⟩ n rule with
                  | mk answer' w =>
                      rw [hrun'] at hstep hwf'
                      refine hstep.andThen fun c hc => ?_
                      cases answer' with
                      | error e => exact ⟨c, rfl, hc⟩
                      | ok applied =>
                          cases applied with
                          | false => exact ⟨c, rfl, hc⟩
                          | true =>
                              -- the children of whatever step was brought back
                              refine .asked (hc.childIds hwf' n) ?_
                              exact rebuildAmong_follows hregistry below
                                (fun c hc _ _ h hf => ih c hc h hf) hc hwf' w.monitor _

/-- A rebuild on an arena is the rebuild of the forest that is stored. -/
theorem rebuild_follows {registry : Registry} {skeleton : Skeleton}
    (hregistry : registry.Proposes allowed) (hskeleton : skeleton.Every allowed)
    (h : a.Mirrors f) (hf : (f.bench []).Wf allowed) (n : NodeId) (monitor : Monitor)
    (config : ReplayConfig) : Follows (rebuild n skeleton registry monitor config) a
      (f.rebuild n skeleton registry monitor config) := by
  have hwf := hf.moves (Forest.rebuild_moves hf hregistry hskeleton n monitor config)
  rw [Forest.rebuild, Forest.treeOf] at hwf ⊢
  cases hlocate : f.locate? n with
  | none => exact ⟨a, Work.bind_error (data_error (h.data?_eq_none hf hlocate)), h⟩
  | some found =>
      obtain ⟨t, p⟩ := found
      rw [hlocate] at hwf
      refine inBatchAt_follows h hf hlocate hwf fun b hb => ?_
      have hbegun := wf_beginBatch hf t.id
      have hrebuilt := rebuildNode_follows hregistry hskeleton hb hbegun config monitor n
      have hwf' := hbegun.moves (Forest.Replays.moves hbegun (Forest.rebuildNode_replays hregistry
        hskeleton config ⟨f.beginBatch t.id, monitor⟩ n))
      cases hrun : Forest.rebuildNode registry config ⟨f.beginBatch t.id, monitor⟩ n skeleton with
      | mk answer w =>
          rw [hrun] at hrebuilt hwf'
          refine hrebuilt.andThen fun c hc => ?_
          cases answer with
          | error e => exact ⟨c, rfl, hc⟩
          | ok _ =>
              have hclosed : Work.ask (fun a => a.nodeClosed n) c =
                  some (.ok (w.forest.nodeClosed n), c) := by
                rw [Work.ask, hc.nodeClosed hwf']
              exact ⟨c, (Work.bind_ok rfl).trans hclosed, hc⟩

end SequentProver.Arena

namespace SequentProver

variable {allowed : Rule → Prop} {a : Arena} {f : Forest} {op : Op}

/-- **Every operation ends and stores the forest after it.** -/
theorem Op.onArena_mirrors (h : a.Mirrors f) (hf : (f.bench []).Wf allowed)
    (hop : op.Within allowed) : ∃ b, op.onArena a = some b ∧ b.Mirrors (op.run f) := by
  -- each case only forgets the answer
  have hfollows : ∀ {α : Type} {w : Arena.Work α} {out : Except TreeError α × Forest},
      Arena.Follows w a out → ∃ b, (w a).map Prod.snd = some b ∧ b.Mirrors out.2 := by
    rintro α w out ⟨b, hrun, hb⟩
    exact ⟨b, by rw [hrun]; rfl, hb⟩
  cases op with
  | createTree sequent origin => exact hfollows (Arena.createTree_follows h hf sequent origin)
  | removeTree tree => exact hfollows (Arena.removeTree_follows h hf tree)
  | copySubtree node => exact hfollows (Arena.copySubtree_follows h hf node)
  | applyRule node rule => exact hfollows (Arena.applyRule_follows h hf hop node)
  | applyReasoner node reasoner input monitor =>
      exact hfollows (Arena.applyReasoner_follows h hf hop node input monitor)
  | pruneChildren node => exact hfollows (Arena.pruneChildren_follows h hf node)
  | pruneAndDiscard node => exact hfollows (Arena.pruneAndDiscard_follows h hf node)
  | setComment node comment => exact hfollows (Arena.setComment_follows h hf node comment)
  | graft node source => exact hfollows (Arena.graft_follows h hf node source)
  | reuse node skeleton => exact hfollows (Arena.reuse_follows hop h hf node)
  | rebuild node skeleton registry monitor config =>
      exact hfollows (Arena.rebuild_follows hop.2 hop.1 h hf node monitor config)
  | addListener tree => exact hfollows (Arena.addListener_follows h tree)
  | removeListener tree listener => exact hfollows (Arena.removeListener_follows h tree listener)
  | beginBatch tree =>
      cases htree : f.tree? tree with
      | none => exact hfollows (Arena.beginBatch_refused h htree)
      | some t => exact hfollows (Arena.beginBatch_follows h htree)
  | endBatch tree => exact hfollows (Arena.endBatch_follows h hf tree)

end SequentProver
