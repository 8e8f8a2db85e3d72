import SequentProver.Proofs.ForestMoves
import SequentProver.Replay.Basic

/-! # Reachable forests

    A forest is reachable if some sequence of operations makes it from the
    empty one.  Sequents that come in from outside have to be well typed;
    rules come in from outside, from reasoners and from skeletons, and are
    restricted by a predicate where a statement is about some rules only.
    Every reachable forest is in order.

    Route:
    1. a replay is a run of rules and comments, each on some node;
    2. so every operation is a sequence of moves on the bench;
    3. reachability. -/

namespace SequentProver

/-- Every rule of the skeleton is allowed. -/
inductive Skeleton.Every (allowed : Rule → Prop) : Skeleton → Prop
  | mk {comment : String} {rule : Option Rule} {children : List Skeleton}
      (top : ∀ r, rule = some r → allowed r) (below : ∀ c ∈ children, Every allowed c) :
      Every allowed (.mk comment rule children)

/-- Any skeleton will do where any rule is allowed. -/
theorem Skeleton.every_true (s : Skeleton) : s.Every fun _ => True := by
  induction s with
  | mk comment rule children ih => exact .mk (fun _ _ => trivial) ih

/-- The skeleton of a node with a rule, taken apart. -/
theorem Skeleton.Every.applied {allowed : Rule → Prop} {node : Node} {rule : Rule}
    {skipped : SkippedActions} {children : List ProofTree}
    (h : (ProofTree.applied node rule skipped children).skeleton.Every allowed) :
    allowed rule ∧ ∀ c ∈ children, c.skeleton.Every allowed := by
  rw [ProofTree.skeleton, ProofTree.skeletonAmong_eq] at h
  obtain ⟨top, below⟩ := h
  exact ⟨top rule rfl, fun c hc => below c.skeleton (List.mem_map.mpr ⟨c, hc, rfl⟩)⟩

/-- The rules of a proof in order are allowed, so those of its skeleton are. -/
theorem ProofTree.every_skeleton {allowed : Rule → Prop} {t : ProofTree}
    (h : t.Everywhere (Justified allowed)) : t.skeleton.Every allowed := by
  induction t with
  | openNode node => exact .mk (fun r hr => nomatch hr) fun c hc => nomatch hc
  | applied node rule skipped children ih =>
      rw [skeleton, skeletonAmong_eq]
      refine .mk ?_ ?_
      · rintro r ⟨⟩
        exact (h.top.step rule rfl).1
      · intro c hc
        obtain ⟨d, hd, rfl⟩ := List.mem_map.mp hc
        exact ih d hd (h.child d hd)

/-- Every rule that the reasoner proposes is allowed, with the input noted
    on it. -/
def Reasoner.Proposes (allowed : Rule → Prop) (r : Reasoner) : Prop :=
  ∀ s input monitor rule monitor', r.apply s input monitor = (.ok rule, monitor') →
    allowed { rule with input := input }

/-- So does every reasoner of the registry. -/
def Registry.Proposes (allowed : Rule → Prop) (r : Registry) : Prop :=
  ∀ id reasoner, r.find? id = some reasoner → reasoner.Proposes allowed

namespace Forest

open Bench (Moves)

variable {allowed : Rule → Prop} {f : Forest}

/-! ## Replays as runs -/

/-- One step of a replay: an allowed rule or a comment on some node. -/
inductive ReplayStep (allowed : Rule → Prop) (f : Forest) : Forest → Prop
  | rule (n : NodeId) {rule : Rule} (hrule : allowed rule) :
      ReplayStep allowed f (f.applyRule n rule).2
  | comment (n : NodeId) (comment : String) : ReplayStep allowed f (f.setComment n comment).2

/-- Steps of a replay, one after the other. -/
abbrev Replays (allowed : Rule → Prop) : Forest → Forest → Prop :=
  Relation.ReflTransGen (ReplayStep allowed)

/-- A step with a reasoner leaves the forest alone or applies a rule that the
    reasoner proposes. -/
theorem applyReasoner_forest {reasoner : Reasoner} (hreasoner : reasoner.Proposes allowed)
    (n : NodeId) (input : Input) (monitor : Monitor) :
    (f.applyReasoner n reasoner input monitor).forest = f ∨
      ∃ rule, allowed rule ∧
        (f.applyReasoner n reasoner input monitor).forest = (f.applyRule n rule).2 := by
  rw [applyReasoner]
  split
  · exact .inl rfl
  · split
    · dsimp only
      split
      · exact .inl rfl
      · split
        · exact .inl rfl
        · rename_i rule monitor' hrun
          exact .inr ⟨{ rule with input := input }, hreasoner _ _ _ _ _ hrun, rfl⟩
    · exact .inl rfl

/-- A step with a reasoner is a replay of at most one rule. -/
theorem applyReasoner_replays {reasoner : Reasoner} (hreasoner : reasoner.Proposes allowed)
    (n : NodeId) (input : Input) (monitor : Monitor) :
    Replays allowed f (f.applyReasoner n reasoner input monitor).forest := by
  rcases applyReasoner_forest hreasoner n input monitor with hsame | ⟨rule, hrule, happly⟩
  · rw [hsame]
  · rw [happly]
    exact .single (.rule n hrule)

/-- Putting back a comment is a replay of at most one comment. -/
theorem restoreComment_replays (n : NodeId) (comment : String) :
    Replays allowed f (f.restoreComment n comment).2 := by
  rw [restoreComment]
  split
  · exact .refl
  · exact .single (.comment n comment)

/-- Trying a rule leaves the forest that applying it leaves. -/
theorem tryRule_forest (f : Forest) (n : NodeId) (rule : Rule) :
    (f.tryRule n rule).2 = (f.applyRule n rule).2 := by
  rw [tryRule]
  split <;> rename_i hrun <;> rw [hrun]

/-- Reusing a rule is a replay of at most that rule. -/
theorem reuseRule_replays {rule : Rule} (hrule : allowed rule) (n : NodeId) :
    Replays allowed f (f.reuseRule n rule).2 := by
  rw [reuseRule]
  split
  · exact .refl
  · split
    · rw [tryRule_forest]
      exact .single (.rule n hrule)
    · exact .refl

/-- Replaying recorded rules. -/
theorem reuseNode_replays {skeleton : Skeleton} (hskeleton : skeleton.Every allowed) (n : NodeId) :
    Replays allowed f (f.reuseNode n skeleton).2 := by
  induction hskeleton generalizing f n with
  | @mk comment rule children top below ih =>
      -- the children one after another, each on the forest the others left
      have hamong : ∀ (f : Forest) nodes, Replays allowed f (f.reuseAmong nodes children).2 := by
        clear below
        intro f nodes
        induction children generalizing f nodes with
        | nil => cases nodes <;> exact .refl
        | cons s rest ihrest =>
            cases nodes with
            | nil => exact .refl
            | cons node nodes =>
                have hnode := ih s List.mem_cons_self (f := f) node
                rw [reuseAmong]
                split <;> rename_i hrun <;> rw [hrun] at hnode
                · exact hnode
                · exact hnode.trans (ihrest (fun c hc => ih c (List.mem_cons_of_mem _ hc)) _ nodes)
      have hcomment : Replays allowed f (f.restoreComment n comment).2 :=
        restoreComment_replays n comment
      rw [reuseNode]
      split <;> rename_i hrun <;> rw [hrun] at hcomment
      · exact hcomment
      · rename_i f'
        split
        · exact hcomment
        · rename_i rule
          have hrule := reuseRule_replays (f := f') (top rule rfl) n
          refine hcomment.trans ?_
          split <;> rename_i hrun' <;> rw [hrun'] at hrule
          · exact hrule
          · exact hrule
          · exact hrule.trans (hamong _ _)

/-- Asking a recorded reasoner again. -/
theorem rerun_replays {registry : Registry} (hregistry : registry.Proposes allowed) (w : Watched)
    (n : NodeId) (rule : Rule) : Replays allowed w.forest (rerun registry w n rule).2.forest := by
  rw [rerun]
  dsimp only
  split
  · exact .refl
  · split
    · exact .refl
    · rename_i reasoner hfind
      split <;> exact applyReasoner_replays (hregistry _ _ hfind) n _ _

/-- One node of a rebuild replays at most one rule. -/
theorem rebuildStep_replays {registry : Registry} {rule : Rule}
    (hregistry : registry.Proposes allowed) (hrule : allowed rule) (config : ReplayConfig)
    (w : Watched) (n : NodeId) :
    Replays allowed w.forest (rebuildStep registry config w n rule).2.forest := by
  -- the rule is tried on the spot, or not at all
  have htry : Replays allowed w.forest
      (if config.reuseFirst then w.forest.tryRule n rule else (.ok false, w.forest)).2 := by
    split
    · rw [tryRule_forest]
      exact .single (.rule n hrule)
    · exact .refl
  rw [rebuildStep]
  split
  · exact .refl
  · split
    · split <;> rename_i f' hrun <;> rw [hrun] at htry
      · exact htry
      · exact htry
      · split
        · exact htry.trans (rerun_replays hregistry ⟨f', w.monitor⟩ n rule)
        · exact htry
    · exact .refl

/-- Replaying with reasoners. -/
theorem rebuildNode_replays {registry : Registry} {skeleton : Skeleton}
    (hregistry : registry.Proposes allowed) (hskeleton : skeleton.Every allowed)
    (config : ReplayConfig) (w : Watched) (n : NodeId) :
    Replays allowed w.forest (rebuildNode registry config w n skeleton).2.forest := by
  induction hskeleton generalizing w n with
  | @mk comment rule children top below ih =>
      -- the children in turn, up to the first error
      have hamong : ∀ (w : Watched) nodes,
          Replays allowed w.forest (rebuildAmong registry config w nodes children).2.forest := by
        clear below
        intro w nodes
        induction children generalizing w nodes with
        | nil => cases nodes <;> exact .refl
        | cons s rest ihrest =>
            cases nodes with
            | nil => exact .refl
            | cons node nodes =>
                have hnode := ih s List.mem_cons_self w node
                rw [rebuildAmong]
                split <;> rename_i hrun <;> rw [hrun] at hnode
                · exact hnode
                · exact hnode.trans (ihrest (fun c hc => ih c (List.mem_cons_of_mem _ hc)) _ nodes)
      have hcomment : Replays allowed w.forest
          (if config.keepComments then w.forest.restoreComment n comment
            else (.ok (), w.forest)).2 := by
        split
        · exact restoreComment_replays n comment
        · exact .refl
      rw [rebuildNode]
      split <;> rename_i f hrun <;> rw [hrun] at hcomment
      · exact hcomment
      · split
        · exact hcomment
        · rename_i rule
          have hstep := rebuildStep_replays hregistry (top rule rfl) config ⟨f, w.monitor⟩ n
          refine hcomment.trans ?_
          split <;> rename_i hrun' <;> rw [hrun'] at hstep
          · exact hstep
          · exact hstep
          · exact hstep.trans (hamong _ _)

/-- The whole of a replay is one batch on the tree of the node. -/
theorem reuse_forest {skeleton : Skeleton} {tree : TreeId} {n : NodeId}
    (htree : f.treeOf n = .ok tree) :
    (f.reuse n skeleton).2 = ((f.beginBatch tree).reuseNode n skeleton).2.endBatch tree := by
  rw [reuse, htree]
  show Forest.endBatch (Prod.snd _) tree = _
  split <;> rename_i hrun <;> rw [hrun]

/-- A rebuild is a batch around its nodes. -/
theorem rebuild_forest {skeleton : Skeleton} {registry : Registry} {monitor : Monitor}
    {config : ReplayConfig} {tree : TreeId} {n : NodeId} (htree : f.treeOf n = .ok tree) :
    (f.rebuild n skeleton registry monitor config).2 =
      (rebuildNode registry config ⟨f.beginBatch tree, monitor⟩ n skeleton).2.forest.endBatch
        tree := by
  rw [rebuild, htree]
  show Forest.endBatch (Prod.snd _) tree = _
  split <;> rename_i hrun <;> rw [hrun]

/-! ## Replays as moves -/

/-- A replay is made of moves. -/
theorem Replays.moves {g : Forest} (h : (f.bench []).Wf allowed) (hrun : Replays allowed f g) :
    Moves allowed (f.bench []) (g.bench []) := by
  induction hrun with
  | refl => exact .refl
  | tail _ step ih =>
      refine ih.trans ?_
      cases step with
      | rule n hrule => exact applyRule_moves (h.moves ih) hrule n
      | comment n comment => exact setComment_moves (h.moves ih) n comment

/-- Reusing a skeleton at a node is made of moves. -/
theorem reuseNode_moves {skeleton : Skeleton} (h : (f.bench []).Wf allowed)
    (hskeleton : skeleton.Every allowed) (n : NodeId) :
    Moves allowed (f.bench []) ((f.reuseNode n skeleton).2.bench []) :=
  Replays.moves h (reuseNode_replays hskeleton n)

/-- A reuse is made of moves. -/
theorem reuse_moves {skeleton : Skeleton} (h : (f.bench []).Wf allowed)
    (hskeleton : skeleton.Every allowed) (n : NodeId) :
    Moves allowed (f.bench []) ((f.reuse n skeleton).2.bench []) := by
  cases htree : f.treeOf n with
  | error e =>
      rw [reuse, htree]
  | ok tree =>
      rw [reuse_forest htree, bench_endBatch]
      rw [← bench_beginBatch f tree] at h ⊢
      exact reuseNode_moves h hskeleton n

/-- A rebuild is made of moves. -/
theorem rebuild_moves {registry : Registry} {skeleton : Skeleton} (h : (f.bench []).Wf allowed)
    (hregistry : registry.Proposes allowed) (hskeleton : skeleton.Every allowed) (n : NodeId)
    (monitor : Monitor) (config : ReplayConfig) :
    Moves allowed (f.bench []) ((f.rebuild n skeleton registry monitor config).2.bench []) := by
  cases htree : f.treeOf n with
  | error e =>
      rw [rebuild, htree]
  | ok tree =>
      rw [rebuild_forest htree, bench_endBatch]
      rw [← bench_beginBatch f tree] at h ⊢
      exact Replays.moves h
        (rebuildNode_replays hregistry hskeleton config ⟨f.beginBatch tree, monitor⟩ n)

end Forest

/-! ## Operations -/

/-- An operation on a forest, with its arguments. -/
inductive Op where
  | createTree (sequent : Sequent) (origin : Option String)
  | removeTree (tree : TreeId)
  | copySubtree (node : NodeId)
  | applyRule (node : NodeId) (rule : Rule)
  | applyReasoner (node : NodeId) (reasoner : Reasoner) (input : Input) (monitor : Monitor)
  | pruneChildren (node : NodeId)
  | pruneAndDiscard (node : NodeId)
  | setComment (node : NodeId) (comment : String)
  | graft (node : NodeId) (source : TreeId)
  | reuse (node : NodeId) (skeleton : Skeleton)
  | rebuild (node : NodeId) (skeleton : Skeleton) (registry : Registry) (monitor : Monitor)
      (config : ReplayConfig)
  | addListener (tree : TreeId)
  | removeListener (tree : TreeId) (listener : Nat)
  | beginBatch (tree : TreeId)
  | endBatch (tree : TreeId)

namespace Op

/-- The forest after an operation. -/
def run (f : Forest) : Op → Forest
  | .createTree sequent origin => (f.createTree sequent origin).2
  | .removeTree tree => (f.removeTree tree).2
  | .copySubtree node => (f.copySubtree node).2
  | .applyRule node rule => (f.applyRule node rule).2
  | .applyReasoner node reasoner input monitor =>
    (f.applyReasoner node reasoner input monitor).forest
  | .pruneChildren node => (f.pruneChildren node).2
  | .pruneAndDiscard node => (f.pruneAndDiscard node).2
  | .setComment node comment => (f.setComment node comment).2
  | .graft node source => (f.graft node source).2
  | .reuse node skeleton => (f.reuse node skeleton).2
  | .rebuild node skeleton registry monitor config =>
    (f.rebuild node skeleton registry monitor config).2
  | .addListener tree => (f.addListener tree).2
  | .removeListener tree listener => (f.removeListener tree listener).2
  | .beginBatch tree => f.beginBatch tree
  | .endBatch tree => f.endBatch tree

/-- The sequents and rules that an operation brings in are fit: sequents
    are well typed and rules are allowed. -/
def Within (allowed : Rule → Prop) : Op → Prop
  | .createTree sequent _ => sequent.WellTyped
  | .applyRule _ rule => allowed rule
  | .applyReasoner _ reasoner _ _ => reasoner.Proposes allowed
  | .reuse _ skeleton => skeleton.Every allowed
  | .rebuild _ skeleton registry _ _ => skeleton.Every allowed ∧ registry.Proposes allowed
  | _ => True

open Bench (Moves)

/-- **Every operation is made of moves.**. -/
theorem moves {allowed : Rule → Prop} {f : Forest} {op : Op} (h : (f.bench []).Wf allowed)
    (hop : op.Within allowed) : Moves allowed (f.bench []) ((op.run f).bench []) := by
  -- the last four do not touch the bench
  cases op with
  | createTree sequent origin => exact Forest.createTree_moves hop origin
  | removeTree tree => exact Forest.removeTree_moves tree
  | copySubtree node => exact Forest.copySubtree_moves node
  | applyRule node rule => exact Forest.applyRule_moves h hop node
  | applyReasoner node reasoner input monitor =>
      exact Forest.Replays.moves h (Forest.applyReasoner_replays hop node input monitor)
  | pruneChildren node => exact Forest.pruneChildren_moves h node
  | pruneAndDiscard node => exact Forest.pruneAndDiscard_moves h node
  | setComment node comment => exact Forest.setComment_moves h node comment
  | graft node source => exact Forest.graft_moves h node source
  | reuse node skeleton => exact Forest.reuse_moves h hop node
  | rebuild node skeleton registry monitor config =>
      exact Forest.rebuild_moves h hop.2 hop.1 node monitor config
  | addListener tree => rw [run, Forest.bench_addListener]
  | removeListener tree listener => rw [run, Forest.bench_removeListener]
  | beginBatch tree => rw [run, Forest.bench_beginBatch]
  | endBatch tree => rw [run, Forest.bench_endBatch]

end Op

/-! ## Reachability -/

namespace Forest

/-- Some sequence of operations makes the forest, with allowed rules
    only. -/
inductive ReachableWith (allowed : Rule → Prop) : Forest → Prop
  | empty : ReachableWith allowed Forest.empty
  | step {f : Forest} (op : Op) (reachable : ReachableWith allowed f) (within : op.Within allowed) :
      ReachableWith allowed (op.run f)

/-- Some sequence of operations makes the forest, with any rules. -/
abbrev Reachable : Forest → Prop := ReachableWith fun _ => True

/-- Every reachable forest is in order. -/
theorem ReachableWith.wf {allowed : Rule → Prop} {f : Forest} (h : f.ReachableWith allowed) :
    (f.bench []).Wf allowed := by
  induction h with
  | empty => exact Bench.wf_empty
  | step op _ within ih => exact ih.moves (op.moves ih within)

end Forest

end SequentProver
