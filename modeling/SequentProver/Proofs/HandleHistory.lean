import SequentProver.Proofs.Batches
import SequentProver.Proofs.Links
import SequentProver.Proofs.SlotHistory

/-! # The life of handles

    Over a run of operations no handle is given out twice, neither for a node
    nor for a tree, and a handle whose node was removed is unknown from then
    on: every question about it fails and every operation on it is refused.

    Route:
    1. every operation is a row of requests for slots;
    2. the handles of trees that an operation gives out are the next numbers;
    3. `Unknown` and `UnknownTree`, what becomes of a handle without a node and
       of one without a tree;
    4. `Chronicle`, a run from the empty forest with all handles given out. -/

namespace SequentProver

/-! ## Requests for slots -/

namespace Bench

variable {allowed : Rule → Prop} {b b' : Bench}

/-- A move requests slots, or leaves them as they are. -/
theorem Wf.served_move (h : b.Wf allowed) (hmove : Move allowed b b') :
    ∃ issued, b.slots.Served (b.all.flatMap ProofTree.ids) issued b'.slots
      (b'.all.flatMap ProofTree.ids) := by
  -- only opening, copying and discarding go to the slots
  obtain ⟨issued, held, hserved⟩ : ∃ issued held,
      b.slots.Served (b.all.flatMap ProofTree.ids) issued b'.slots held := by
    cases hmove with
    | opening sequents wellTyped => exact ⟨_, Slots.served_openNodes _ _ sequents⟩
    | @copying n tree p located => exact ⟨_, Slots.served_copy _ _ p⟩
    | @discarding p rest loose =>
        have hall : (b.all.flatMap ProofTree.ids).Perm
            (p.idsUpward ++ (b.proofs.map Prod.snd ++ rest).flatMap ProofTree.ids) := by
          rw [all, loose]
          refine (List.perm_middle.flatMap_right ProofTree.ids).trans ?_
          rw [List.flatMap_cons]
          exact p.idsUpward_perm.symm.append_right _
        exact ⟨[], _, (Slots.served_releaseAll b.slots p.idsUpward _).perm_left hall⟩
    | planting _ => exact ⟨[], _, .done (.refl _)⟩
    | uprooting _ => exact ⟨[], _, .done (.refl _)⟩
    | commenting _ _ => exact ⟨[], _, .done (.refl _)⟩
    | detaching _ => exact ⟨[], _, .done (.refl _)⟩
    | attaching _ _ _ _ _ _ => exact ⟨[], _, .done (.refl _)⟩
  exact ⟨issued, hserved.perm_right h.held (h.move hmove).held⟩

/-- Moves are requests for slots: some handles are handed out, others given
    back. -/
theorem Wf.served_moves (h : b.Wf allowed) (hmoves : Moves allowed b b') :
    ∃ issued, b.slots.Served (b.all.flatMap ProofTree.ids) issued b'.slots
      (b'.all.flatMap ProofTree.ids) := by
  induction hmoves with
  | refl => exact ⟨[], .done (.refl _)⟩
  | tail hmoves hmove ih =>
      obtain ⟨before, hbefore⟩ := ih
      obtain ⟨last, hlast⟩ := (h.moves hmoves).served_move hmove
      exact ⟨before ++ last, hbefore.trans hlast⟩

/-- A tree with an old number was there before: new trees take new numbers. -/
theorem Move.old_tree (hmove : Move allowed b b') :
    b.nextTree ≤ b'.nextTree ∧
      ∀ u ∈ b'.proofs, u.1.number < b.nextTree → u.1 ∈ b.proofs.map Prod.fst := by
  have hkept : ∀ u ∈ b.proofs, u.1.number < b.nextTree → u.1 ∈ b.proofs.map Prod.fst :=
    fun u hu _ => List.mem_map.mpr ⟨u, hu, rfl⟩
  -- putting a subtree into a tree leaves its handle
  have hput : ∀ tree n q, ∀ u ∈ (b.put tree n q).proofs,
      u.1.number < b.nextTree → u.1 ∈ b.proofs.map Prod.fst := by
    intro tree n q u hu _
    obtain ⟨v, hv, rfl⟩ := List.mem_map.mp hu
    refine List.mem_map.mpr ⟨v, hv, ?_⟩
    split <;> rfl
  cases hmove with
  | opening sequents wellTyped => exact ⟨Nat.le_refl _, hkept⟩
  | copying located => exact ⟨Nat.le_refl _, hkept⟩
  | planting loose =>
      refine ⟨Nat.le_succ _, fun u hu hlt => ?_⟩
      rcases List.mem_append.mp hu with hu | hu
      · exact hkept u hu hlt
      · rw [List.mem_singleton.mp hu] at hlt
        exact absurd hlt (Nat.lt_irrefl _)
  | uprooting mem =>
      exact ⟨Nat.le_refl _, fun u hu hlt => hkept u (List.mem_of_mem_filter hu) hlt⟩
  | discarding loose => exact ⟨Nat.le_refl _, hkept⟩
  | commenting comment located => exact ⟨Nat.le_refl _, hput _ _ _⟩
  | detaching located => exact ⟨Nat.le_refl _, hput _ _ _⟩
  | attaching located isOpen loose ok same expand => exact ⟨Nat.le_refl _, hput _ _ _⟩

/-- No move brings a tree back. -/
theorem Moves.old_tree (hmoves : Moves allowed b b') :
    b.nextTree ≤ b'.nextTree ∧
      ∀ u ∈ b'.proofs, u.1.number < b.nextTree → u.1 ∈ b.proofs.map Prod.fst := by
  induction hmoves with
  | refl => exact ⟨Nat.le_refl _, fun u hu _ => List.mem_map.mpr ⟨u, hu, rfl⟩⟩
  | tail _ hmove ih =>
      obtain ⟨hle, hold⟩ := ih
      obtain ⟨hle', hold'⟩ := hmove.old_tree
      refine ⟨Nat.le_trans hle hle', fun u hu hlt => ?_⟩
      obtain ⟨v, hv, hid⟩ := List.mem_map.mp (hold' u hu (Nat.lt_of_lt_of_le hlt hle))
      rw [← hid] at hlt ⊢
      exact hold v hv hlt

end Bench

namespace Forest

variable {f g : Forest} {n : NodeId} {tree : TreeId}

/-- The handles of all nodes. -/
def handles (f : Forest) : List NodeId := f.trees.flatMap fun t => t.proof.ids

/-- The handles on the workbench are those of the forest. -/
theorem handles_bench (f : Forest) : (f.bench []).all.flatMap ProofTree.ids = f.handles := by
  rw [Bench.all, bench, List.append_nil, List.map_map, List.flatMap_map]
  rfl

/-- The handles are those of nodes. -/
theorem mem_handles {allowed : Rule → Prop} (h : (f.bench []).Wf allowed) :
    n ∈ f.handles ↔ (f.node? n).isSome = true := by
  rw [← handles_bench]
  exact mem_ids_all h

/-- An operation makes requests for slots. -/
theorem served_op {allowed : Rule → Prop} {op : Op} (h : (f.bench []).Wf allowed)
    (hop : op.Within allowed) :
    ∃ issued, f.slots.Served f.handles issued (op.run f).slots (op.run f).handles := by
  rw [← handles_bench, ← handles_bench]
  exact h.served_moves (op.moves h hop)

/-! ## Handles of trees -/

/-- Batches use up no numbers of trees. -/
theorem nextTree_inBatch {α : Type} (f : Forest) (tree : TreeId) (body : Forest → α × Forest) :
    (f.inBatch tree body).2.nextTree = (body (f.beginBatch tree)).2.nextTree :=
  nextTree_endBatch _ tree

theorem nextTree_applyRule (f : Forest) (n : NodeId) (rule : Rule) :
    (f.applyRule n rule).2.nextTree = f.nextTree := by
  rw [applyRule]
  split
  · rfl
  · split
    · split
      · rfl
      · exact nextTree_inBatch _ _ _
    · rfl

theorem nextTree_setComment (f : Forest) (n : NodeId) (comment : String) :
    (f.setComment n comment).2.nextTree = f.nextTree := by
  rw [setComment]
  split
  · rfl
  · split
    · rfl
    · exact nextTree_inBatch _ _ _

/-- A graft uses up none: the tree that it takes from stays. -/
theorem nextTree_graft (f : Forest) (n : NodeId) (source : TreeId) :
    (f.graft n source).2.nextTree = f.nextTree := by
  rw [graft]
  split
  · rfl
  · rfl
  · split
    · rfl
    · split
      · rw [nextTree_inBatch, nextTree_inBatch]
        rfl
      · rfl

/-- A replay uses up no numbers of trees. -/
theorem Replays.nextTree {allowed : Rule → Prop} (hrun : Replays allowed f g) :
    g.nextTree = f.nextTree := by
  induction hrun with
  | refl => rfl
  | tail _ step ih =>
      cases step with
      | rule n _ => rw [nextTree_applyRule, ih]
      | comment n comment => rw [nextTree_setComment, ih]

theorem nextTree_reuse (f : Forest) (n : NodeId) (skeleton : Skeleton) :
    (f.reuse n skeleton).2.nextTree = f.nextTree := by
  cases htree : f.treeOf n with
  | error e => rw [reuse, htree]
  | ok tree =>
      rw [reuse_forest htree, nextTree_endBatch]
      exact Replays.nextTree (f := f.beginBatch tree) (reuseNode_replays skeleton.every_true n)

theorem nextTree_rebuild (f : Forest) (n : NodeId) (skeleton : Skeleton) (registry : Registry)
    (monitor : Monitor) (config : ReplayConfig) :
    (f.rebuild n skeleton registry monitor config).2.nextTree = f.nextTree := by
  have hany : registry.Proposes fun _ => True := fun _ _ _ _ _ _ _ _ _ => trivial
  cases htree : f.treeOf n with
  | error e => rw [rebuild, htree]
  | ok tree =>
      rw [rebuild_forest htree, nextTree_endBatch]
      exact Replays.nextTree (f := f.beginBatch tree)
        (rebuildNode_replays hany skeleton.every_true config ⟨f.beginBatch tree, monitor⟩ n)

theorem nextTree_removeTree (f : Forest) (tree : TreeId) :
    (f.removeTree tree).2.nextTree = f.nextTree := by
  rw [removeTree]
  split <;> rfl

theorem nextTree_removeTrees (f : Forest) (trees : List TreeId) :
    (f.removeTrees trees).nextTree = f.nextTree := by
  induction trees generalizing f with
  | nil => rfl
  | cons tree rest ih => exact (ih _).trans (nextTree_removeTree f tree)

/-- `given` are the handles of trees given out between the two forests: the
    next numbers in a row. -/
def Numbers (f : Forest) (given : List TreeId) (g : Forest) : Prop :=
  given = (List.range' f.nextTree given.length).map TreeId.mk ∧
    g.nextTree = f.nextTree + given.length

theorem Numbers.none (h : g.nextTree = f.nextTree) : f.Numbers [] g := ⟨rfl, h⟩

theorem Numbers.one (h : g.nextTree = f.nextTree + 1) : f.Numbers [⟨f.nextTree⟩] g := ⟨rfl, h⟩

/-- Planted trees are numbered in a row. -/
theorem numbers_plantAll (f : Forest) (proofs : List ProofTree) :
    f.Numbers (f.plantAll proofs).1 (f.plantAll proofs).2 := by
  induction proofs generalizing f with
  | nil => exact .none rfl
  | cons proof rest ih =>
      obtain ⟨hgiven, hnext⟩ := ih (f.plant none proof).2
      constructor
      · show _ = (List.range' f.nextTree
          (((f.plant none proof).2.plantAll rest).1.length + 1)).map TreeId.mk
        rw [List.range'_succ, List.map_cons]
        exact congrArg (List.cons _) hgiven
      · exact hnext.trans (Nat.add_right_comm f.nextTree 1 _)

/-- The handles of the trees that a prune answers with. -/
def pruned (f : Forest) (n : NodeId) : List TreeId :=
  match (f.pruneChildren n).1 with
  | .ok trees => trees
  | .error _ => []

/-- Discarding is pruning, and removing what was pruned. -/
theorem pruneAndDiscard_eq (f : Forest) (n : NodeId) :
    (f.pruneAndDiscard n).2 = (f.pruneChildren n).2.removeTrees (f.pruned n) := by
  rw [pruneAndDiscard, pruned]
  split <;> rename_i hrun <;> rw [hrun]
  rfl

/-- Pruned trees are numbered in a row. -/
theorem numbers_pruneChildren (f : Forest) (n : NodeId) :
    f.Numbers (f.pruned n) (f.pruneChildren n).2 := by
  cases hlocate : f.locate? n with
  | none =>
      rw [pruned, pruneChildren, hlocate]
      exact .none rfl
  | some found =>
      obtain ⟨t, p⟩ := found
      cases hopen : p.isOpen with
      | true =>
          rw [pruned, pruneChildren_open hlocate hopen]
          exact .none rfl
      | false =>
          obtain ⟨hgiven, hnext⟩ := numbers_plantAll (f.bared t.id n) p.children
          rw [pruned, pruneChildren_applied hlocate hopen]
          exact ⟨hgiven, (nextTree_endBatch _ t.id).trans hnext⟩

end Forest

namespace Op

open Forest

/-- The handles of trees that an operation gives out. -/
def plants (f : Forest) : Op → List TreeId
  | .createTree sequent origin => [(f.createTree sequent origin).1]
  | .copySubtree node =>
    match (f.copySubtree node).1 with
    | .ok tree => [tree]
    | .error _ => []
  | .pruneChildren node => f.pruned node
  | .pruneAndDiscard node => f.pruned node
  | _ => []

/-- **Every operation numbers its trees in a row.**. -/
theorem numbers (f : Forest) (op : Op) : f.Numbers (op.plants f) (op.run f) := by
  -- only these give out handles for trees: creating, copying and pruning
  cases op with
  | createTree sequent origin => exact .one rfl
  | removeTree tree => exact .none (nextTree_removeTree f tree)
  | copySubtree node =>
      rw [plants, run, Forest.copySubtree]
      cases f.node? node with
      | none => exact .none rfl
      | some proof => exact .one rfl
  | applyRule node rule => exact .none (nextTree_applyRule f node rule)
  | applyReasoner node reasoner input monitor =>
      have hany : reasoner.Proposes fun _ => True := fun _ _ _ _ _ _ => trivial
      exact .none (Replays.nextTree (applyReasoner_replays hany node input monitor))
  | pruneChildren node => exact numbers_pruneChildren f node
  | pruneAndDiscard node =>
      obtain ⟨hgiven, hnext⟩ := numbers_pruneChildren f node
      refine ⟨hgiven, ?_⟩
      rw [run, pruneAndDiscard_eq, nextTree_removeTrees]
      exact hnext
  | setComment node comment => exact .none (nextTree_setComment f node comment)
  | graft node source => exact .none (nextTree_graft f node source)
  | reuse node skeleton => exact .none (nextTree_reuse f node skeleton)
  | rebuild node skeleton registry monitor config =>
      exact .none (nextTree_rebuild f node skeleton registry monitor config)
  | addListener tree =>
      refine .none ?_
      rw [run, Forest.addListener]
      split <;> rfl
  | removeListener tree listener =>
      refine .none ?_
      rw [run, Forest.removeListener]
      split <;> rfl
  | beginBatch tree => exact .none rfl
  | endBatch tree => exact .none (nextTree_endBatch f tree)

end Op

namespace Forest

variable {f g : Forest} {n : NodeId} {tree : TreeId}

/-! ## Unknown handles -/

/-- No node has the handle: questions about it fail, and operations on it are
    refused and change nothing. -/
structure Unknown (f : Forest) (n : NodeId) : Prop where
  node : f.node? n = none
  parent : f.parent? n = none
  tree : f.treeOf n = .error (.unknownNode n)
  openDescendants : f.openDescendants n = .error (.unknownNode n)
  firstOpen : f.firstOpen n = .error (.unknownNode n)
  dependencies : f.nodeDependencies n = .error (.unknownNode n)
  skeleton : f.skeleton n = .error (.unknownNode n)
  deepEquals : ∀ m, f.deepEquals n m = false ∧ f.deepEquals m n = false
  copySubtree : f.copySubtree n = (.error (.unknownNode n), f)
  applyRule : ∀ rule, f.applyRule n rule = (.error (.unknownNode n), f)
  applyReasoner : ∀ reasoner input monitor, f.applyReasoner n reasoner input monitor =
    ⟨.error (.tree (.unknownNode n)), f, monitor⟩
  pruneChildren : f.pruneChildren n = (.error (.unknownNode n), f)
  pruneAndDiscard : f.pruneAndDiscard n = (.error (.unknownNode n), f)
  setComment : ∀ comment, f.setComment n comment = (.error (.unknownNode n), f)
  graft : ∀ source, f.graft n source = (.error (.unknownNode n), f)
  reuse : ∀ skeleton, f.reuse n skeleton = (.error (.unknownNode n), f)
  rebuild : ∀ skeleton registry monitor config,
    f.rebuild n skeleton registry monitor config = (.error (.unknownNode n), f)

/-- Where no node has the handle, everything fails. -/
theorem unknown_of_node? {allowed : Rule → Prop} (h : (f.bench []).Wf allowed)
    (hnode : f.node? n = none) : f.Unknown n := by
  have hlocate : f.locate? n = none := Option.map_eq_none_iff.mp hnode
  have herror : f.nodeOrError n = .error (.unknownNode n) := by rw [nodeOrError, hnode]
  have htree : f.treeOf n = .error (.unknownNode n) := by rw [treeOf, hlocate]
  have hprune : f.pruneChildren n = (.error (.unknownNode n), f) := by rw [pruneChildren, hlocate]
  constructor
  case node => exact hnode
  case parent =>
    cases hparent : f.parent? n with
    | none => rfl
    | some m =>
        -- a child of some node would be a node
        obtain ⟨p, hp, hchild⟩ := mem_childIds.mp ((parent?_eq_some h).mp hparent)
        obtain ⟨c, hc, rfl⟩ := List.mem_map.mp hchild
        rw [node?_child h hp hc] at hnode
        cases hnode
  case tree => exact htree
  case openDescendants => rw [openDescendants, herror]; rfl
  case firstOpen => rw [firstOpen, herror]; rfl
  case dependencies => rw [nodeDependencies, herror]; rfl
  case skeleton => rw [skeleton, herror]; rfl
  case deepEquals =>
    intro m
    rw [deepEquals, deepEquals, hnode]
    exact ⟨rfl, by cases f.node? m <;> rfl⟩
  case copySubtree => rw [copySubtree, hnode]
  case applyRule => exact fun _ => by rw [applyRule, hlocate]
  case applyReasoner => exact fun _ _ _ => by rw [applyReasoner, hnode]
  case pruneChildren => exact hprune
  case pruneAndDiscard => rw [pruneAndDiscard, hprune]
  case setComment => exact fun _ => by rw [setComment, hlocate]
  case graft => exact fun _ => by rw [graft, hlocate]
  case reuse => exact fun _ => by rw [reuse, htree]
  case rebuild => exact fun _ _ _ _ => by rw [rebuild, htree]

/-- No tree has the handle. -/
structure UnknownTree (f : Forest) (tree : TreeId) : Prop where
  absent : f.tree? tree = none
  root : f.root tree = .error (.unknownTree tree)
  confidence : f.confidence tree = .error (.unknownTree tree)
  isClosed : f.isClosed tree = .error (.unknownTree tree)
  dependencies : f.proofDependencies tree = .error (.unknownTree tree)
  removeTree : f.removeTree tree = (false, f)
  graft : ∀ n, ∃ e, f.graft n tree = (.error e, f)
  addListener : f.addListener tree = (.error (.unknownTree tree), f)
  removeListener : ∀ listener, f.removeListener tree listener = (false, f)

/-- Where no tree has the handle, everything fails. -/
theorem unknownTree_of_tree? (htree : f.tree? tree = none) : f.UnknownTree tree := by
  have herror : f.treeOrError tree = .error (.unknownTree tree) := by rw [treeOrError, htree]
  have hconfidence : f.confidence tree = .error (.unknownTree tree) := by
    rw [confidence, herror]
    rfl
  constructor
  case absent => exact htree
  case root => rw [root, herror]; rfl
  case confidence => exact hconfidence
  case isClosed => rw [isClosed, hconfidence]; rfl
  case dependencies => rw [proofDependencies, herror]; rfl
  case removeTree => rw [removeTree, htree]
  case graft =>
    intro n
    cases hlocate : f.locate? n with
    | none => exact ⟨_, by rw [graft, hlocate]⟩
    | some found => exact ⟨_, by rw [graft, hlocate, htree]⟩
  case addListener => rw [addListener, htree]
  case removeListener => exact fun _ => by rw [removeListener, htree]

/-! ## Runs with their handles -/

/-- Operations lead from the first forest to the second. -/
inductive Later (f : Forest) : Forest → Prop
  | now : Later f f
  | step {g : Forest} (op : Op) (later : Later f g) (within : op.Within fun _ => True) :
      Later f (op.run g)

/-- A run from the empty forest, with the handles given out on the way: `nodes`
    in the order in which the slots handed them out, `trees` in the order of
    the answers. -/
inductive Chronicle : Forest → List NodeId → List TreeId → Prop
  | start : Chronicle Forest.empty [] []
  | step {f : Forest} {nodes issued : List NodeId} {trees : List TreeId} (op : Op)
      (past : Chronicle f nodes trees) (within : op.Within fun _ => True)
      (served : f.slots.Served f.handles issued (op.run f).slots (op.run f).handles) :
      Chronicle (op.run f) (nodes ++ issued) (trees ++ op.plants f)

/-- What comes later is reachable. -/
theorem Later.reachable (hlater : f.Later g) (hf : f.Reachable) : g.Reachable := by
  induction hlater with
  | now => exact hf
  | step op _ within ih => exact .step op ih within

/-- A spent handle stays spent. -/
theorem Later.spent (hlater : f.Later g) (hf : f.Reachable) (hspent : f.slots.Spent n) :
    g.slots.Spent n := by
  induction hlater with
  | now => exact hspent
  | step op hlater within ih =>
      obtain ⟨issued, hserved⟩ := served_op (hlater.reachable hf).wf within
      exact hserved.spent ih

/-- A tree that is gone stays away, and its number is not given out again. -/
theorem Later.old_tree (hlater : f.Later g) (hf : f.Reachable) (hlt : tree.number < f.nextTree)
    (hgone : f.tree? tree = none) : g.tree? tree = none ∧ tree.number < g.nextTree := by
  induction hlater with
  | now => exact ⟨hgone, hlt⟩
  | @step g op hlater within ih =>
      obtain ⟨hnone, hlt'⟩ := ih
      obtain ⟨hle, hold⟩ := Bench.Moves.old_tree (op.moves (hlater.reachable hf).wf within)
      refine ⟨List.find?_eq_none.mpr fun t ht hid => ?_, Nat.lt_of_lt_of_le hlt' hle⟩
      have hid : t.id = tree := of_decide_eq_true hid
      obtain ⟨u, hu, huid⟩ :=
        List.mem_map.mp (hold (t.id, t.proof) (List.mem_map.mpr ⟨t, ht, rfl⟩) (hid ▸ hlt'))
      obtain ⟨t', ht', rfl⟩ := List.mem_map.mp hu
      exact List.find?_eq_none.mp hnone t' ht' (decide_eq_true (huid.trans hid))

section Chronicle

variable {nodes : List NodeId} {trees : List TreeId}

/-- A chronicle ends in a reachable forest. -/
theorem Chronicle.reachable (h : f.Chronicle nodes trees) : f.Reachable := by
  induction h with
  | start => exact .empty
  | step op _ within _ ih => exact .step op ih within

/-- A chronicle accounts for the handles of all nodes. -/
theorem Chronicle.accounts (h : f.Chronicle nodes trees) : f.slots.Accounts f.handles nodes := by
  induction h with
  | start => exact Slots.accounts_empty
  | step op _ _ served ih => exact ih.served served

/-- Trees are numbered from zero. -/
theorem Chronicle.trees_eq (h : f.Chronicle nodes trees) :
    trees = (List.range f.nextTree).map TreeId.mk := by
  induction h with
  | start => rfl
  | @step f nodes issued trees op _ _ _ ih =>
      obtain ⟨hgiven, hnext⟩ := op.numbers f
      rw [ih, hgiven, hnext, ← List.map_append, List.range_eq_range', List.range_eq_range',
        ← List.range'_append_1, Nat.zero_add]

/-- **Handles never come back.**  In a run no handle is handed out twice, for a
    node or for a tree; a handle that was handed out and has no node is
    unknown in every later forest, and so is one of a tree.  The run can always
    go on. -/
theorem handles_never_return (h : f.Chronicle nodes trees) :
    nodes.Nodup ∧ trees.Nodup ∧ (∀ n, (f.node? n).isSome = true → n ∈ nodes) ∧
      (∀ n ∈ nodes, f.node? n = none → ∀ g, f.Later g → g.Unknown n) ∧
      (∀ tree ∈ trees, f.tree? tree = none → ∀ g, f.Later g → g.UnknownTree tree) ∧
      ∀ op : Op, op.Within (fun _ => True) →
        ∃ issued, (op.run f).Chronicle (nodes ++ issued) (trees ++ op.plants f) := by
  have hf := h.reachable
  have haccounts := h.accounts
  refine ⟨haccounts.nodup, ?_, ?_, ?_, ?_, ?_⟩
  · rw [h.trees_eq]
    exact List.nodup_range.map fun a b hab => congrArg TreeId.number hab
  · exact fun n hn => haccounts.held_mem n ((mem_handles hf.wf).mpr hn)
  · intro n hn hnone g hlater
    -- the handle was given out and is not in use, so its generation has passed
    have hspent : f.slots.Spent n := by
      refine (haccounts.past n hn).resolve_left fun hheld => ?_
      rw [mem_handles hf.wf, hnone] at hheld
      exact nomatch hheld
    have hg := hlater.reachable hf
    refine unknown_of_node? hg.wf (Option.not_isSome_iff_eq_none.mp fun hlive => ?_)
    refine hg.wf.held.not_spent ?_ (hlater.spent hf hspent)
    exact (mem_ids_all hg.wf).mpr hlive
  -- handles of trees are numbers, and numbers only go up
  · intro tree htree hnone g hlater
    rw [h.trees_eq] at htree
    obtain ⟨k, hk, rfl⟩ := List.mem_map.mp htree
    exact unknownTree_of_tree? (hlater.old_tree hf (List.mem_range.mp hk) hnone).1
  · intro op hop
    obtain ⟨issued, hserved⟩ := served_op hf.wf hop
    exact ⟨issued, .step op h hop hserved⟩

end Chronicle

/-- Two trees; the first is removed, and its slot is used again for a third. -/
def reused : Forest :=
  let f := (Forest.empty.createTree ⟨.empty, .empty, .top⟩ none).2
  let f := (f.createTree ⟨.empty, .empty, .bottom⟩ none).2
  ((f.removeTree ⟨0⟩).2.createTree ⟨.empty, .empty, .top⟩ none).2

/-- The chronicle of the example: a slot comes back under its next generation.
    -/
theorem reused_chronicle :
    reused.Chronicle [⟨0, 0⟩, ⟨1, 0⟩, ⟨0, 1⟩] [⟨0⟩, ⟨1⟩, ⟨2⟩] := by
  have htop : Sequent.WellTyped ⟨.empty, .empty, .top⟩ := by decide +kernel
  have hbottom : Sequent.WellTyped ⟨.empty, .empty, .bottom⟩ := by decide +kernel
  have hfirst : Chronicle _ [⟨0, 0⟩] [⟨0⟩] :=
    .step (.createTree _ none) .start htop (.handOut (.done (.refl _)))
  have hsecond : Chronicle _ [⟨0, 0⟩, ⟨1, 0⟩] [⟨0⟩, ⟨1⟩] :=
    .step (.createTree _ none) hfirst hbottom (.handOut (.done (.swap _ _ _)))
  have hremoved : Chronicle _ [⟨0, 0⟩, ⟨1, 0⟩] [⟨0⟩, ⟨1⟩] :=
    .step (.removeTree ⟨0⟩) hsecond trivial (.giveBack ⟨0, 0⟩ (.refl _) (.done (.refl _)))
  exact .step (.createTree _ none) hremoved htop (.handOut (.done (.swap _ _ _)))

/-- The slot has a node again, and the old handle does not reach it. -/
theorem reused_stale :
    (reused.node? ⟨0, 1⟩).isSome = true ∧ reused.Unknown ⟨0, 0⟩ ∧ reused.UnknownTree ⟨0⟩ ∧
      [(⟨0, 0⟩ : NodeId), ⟨1, 0⟩, ⟨0, 1⟩].Nodup ∧ [(⟨0⟩ : TreeId), ⟨1⟩, ⟨2⟩].Nodup := by
  obtain ⟨hnodes, htrees, -, hnode, htree, -⟩ := handles_never_return reused_chronicle
  exact ⟨by decide +kernel, hnode _ (by decide) (by decide +kernel) _ .now,
    htree _ (by decide) (by decide +kernel) _ .now, hnodes, htrees⟩

end Forest

end SequentProver
