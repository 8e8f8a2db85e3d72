import SequentProver.Proofs.Arena.Replays

/-! # The fields of an arena stay consistent

    Tree, parent and children fields are written apart from each other, by
    operations that move subtrees from tree to tree and use slots again.
    After any sequence of operations they describe one arrangement of the
    nodes: the one that the forest has.

    Route:
    1. following stored child links, which lead where the tree says;
    2. `Consistent`, what the fields have to do with each other;
    3. `Agrees`, what they have to do with the answers of the forest;
    4. both after every sequence of operations. -/

namespace SequentProver

namespace Arena

variable {allowed : Rule → Prop} {a : Arena} {f : Forest} {n m : NodeId} {d : NodeData}
  {p : ProofTree} {t : Tree}

/-! ## Following child links -/

/-- The node at a path of positions in the stored lists of children. -/
def follow (a : Arena) : List Nat → NodeId → Option NodeId
  | [], n => some n
  | i :: path, n => (a.childIds n)[i]?.bind (a.follow path)

/-- Stored links lead where the tree says. -/
theorem follow_eq {tree : TreeId} {parent : Option NodeId} (h : Stores a.data? tree parent p)
    (path : List Nat) : a.follow path p.id = (p.follow path).map ProofTree.id := by
  induction path generalizing p parent with
  | nil => rfl
  | cons i path ih =>
      have hchildren : a.childIds p.id = p.children.map ProofTree.id := by
        rw [childIds, h.top]
        rfl
      rw [follow, ProofTree.follow, hchildren, List.getElem?_map]
      cases hc : p.children[i]? with
      | none => rfl
      | some c => exact ih (h.child c (List.mem_of_getElem? hc))

/-! ## Consistent arenas -/

/-- The fields of an arena agree with each other. -/
structure Consistent (a : Arena) : Prop where
  /-- Every node is reached from the root of the tree that its tree field
      names, and child links reach it from no other root and on no other
      way. -/
  reached_once : ∀ n d, a.data? n = some d → ∃ t ∈ a.trees, ∃ path, t.id = d.tree ∧
    a.follow path t.root = some n ∧
      ∀ t' ∈ a.trees, ∀ path', a.follow path' t'.root = some n → t' = t ∧ path' = path
  /-- No two trees have the same handle. -/
  tree_nodup : (a.trees.map TreeEntry.id).Nodup
  /-- Roots are nodes. -/
  root_live : ∀ t ∈ a.trees, (a.data? t.root).isSome = true
  /-- Child links lead to nodes. -/
  child_live : ∀ n d, a.data? n = some d → ∀ c ∈ d.children, (a.data? c).isSome = true
  /-- The parent field names the node that lists the node as a child, and no
      other node does. -/
  parent_iff : ∀ n d, a.data? n = some d → ∀ m,
    d.parent = some m ↔ ∃ e, a.data? m = some e ∧ n ∈ e.children
  /-- The nodes without a parent are the roots. -/
  root_iff : ∀ n d, a.data? n = some d → (d.parent = none ↔ ∃ t ∈ a.trees, t.root = n)
  /-- There is nothing below an open node. -/
  open_bare : ∀ n d, a.data? n = some d → d.rule = none → d.children = [] ∧ d.skipped = {}
  /-- Below a rule are the children that it gives on the node's own sequent,
      and the skipped actions are those skipped there. -/
  applied_expands : ∀ n d rule, a.data? n = some d → d.rule = some rule →
    d.children.length = rule.antecedents.length ∧
      ∃ kids, rule.expand d.sequent = some (kids, d.skipped) ∧
        List.Forall₂ (fun c kid => ∃ e, a.data? c = some e ∧ e.sequent.sameAs kid = true)
          d.children kids
  /-- No slot is free twice. -/
  free_nodup : a.free.Nodup
  /-- The free slots are the empty ones. -/
  free_iff : ∀ i, i ∈ a.free ↔ ∃ slot, a.nodes[i]? = some slot ∧ slot.data = none
  /-- The nodes are counted right. -/
  counted : ∃ nodes : List NodeId, nodes.Nodup ∧
    (∀ n, n ∈ nodes ↔ (a.data? n).isSome = true) ∧ a.nodeCount = nodes.length

/-- What the forest answers about its nodes and trees is what the arena
    stores. -/
structure Agrees (a : Arena) (f : Forest) : Prop where
  /-- A node is stored with the tree and the parent that the forest finds. -/
  node : ∀ n p, f.node? n = some p → ∃ tree, f.treeOf n = .ok tree ∧
    a.data? n = some (p.stored tree (f.parent? n))
  missing : ∀ n, f.node? n = none → a.data? n = none
  root_iff : ∀ tree n, f.root tree = .ok n ↔ ∃ t, a.tree? tree = some t ∧ t.root = n
  nodeCount : a.nodeCount = f.nodeCount
  notices : a.notices = f.notices

/-! ## Arenas that store a forest -/

/-- In a tree laid out from its root, every node is stored with the parent
    that it has in the tree. -/
theorem Stores.parent {store : NodeId → Option NodeData} {tree : TreeId} {t : ProofTree}
    (h : Stores store tree none t) (hids : t.ids.Nodup) (hfind : t.find? n = some p) :
    store n = some (p.stored tree (t.parent? n)) := by
  by_cases hroot : n = t.id
  · subst hroot
    cases t.find?_id.symm.trans hfind
    rw [ProofTree.parent?_id hids, h.top]
  · obtain ⟨m, hm⟩ := ProofTree.exists_parent? (ProofTree.mem_ids_of_find? hfind) hroot
    obtain ⟨q, hq, hchild⟩ := ProofTree.find?_of_parent? hids hm
    obtain ⟨c, hc, rfl⟩ := List.mem_map.mp hchild
    -- the node is a child of its parent, where it is laid out
    have hfind' := ProofTree.find?_trans hids hq
      (ProofTree.find?_child (ProofTree.nodup_ids_find? hids hq) hc)
    cases hfind'.symm.trans hfind
    obtain ⟨above, hstored⟩ := h.find? hq
    rw [(hstored.child p hc).top, hm, ProofTree.id_of_find? hq]

section Mirrors

variable (h : a.Mirrors f) (hf : (f.bench []).Wf allowed)
include h hf

/-- What is stored for a node of a tree. -/
theorem data?_of_find? (ht : t ∈ f.trees) (hfind : t.proof.find? n = some p) :
    a.data? n = some (p.stored t.id (f.parent? n)) := by
  rw [Forest.parent?_eq hf ht (ProofTree.mem_ids_of_find? hfind)]
  exact (h.stored t ht).parent (Forest.nodup_ids hf ht) hfind

/-- What is stored is stored for a node of a tree. -/
theorem exists_find? (hn : a.data? n = some d) : ∃ t ∈ f.trees, ∃ p,
    t.proof.find? n = some p ∧ d = p.stored t.id (f.parent? n) := by
  obtain ⟨t, p, located⟩ := h.exists_locate? hf hn
  obtain ⟨ht, hfind⟩ := (Forest.locate?_eq_some hf).mp located
  rw [data?_of_find? h hf ht hfind] at hn
  exact ⟨t, ht, p, hfind, (Option.some.inj hn).symm⟩

/-- The handles that something is stored for are those of nodes. -/
theorem isSome_data? : (a.data? n).isSome = true ↔ (f.node? n).isSome = true := by
  rw [Option.isSome_iff_exists, Option.isSome_iff_exists]
  constructor
  · rintro ⟨d, hn⟩
    obtain ⟨t, ht, p, hfind, -⟩ := exists_find? h hf hn
    exact ⟨p, (Forest.node?_eq_some hf).mpr ⟨t, ht, hfind⟩⟩
  · rintro ⟨p, hp⟩
    obtain ⟨t, ht, hfind⟩ := (Forest.node?_eq_some hf).mp hp
    exact ⟨_, data?_of_find? h hf ht hfind⟩

/-- The stored lists of children are those of the forest. -/
theorem mem_children_iff :
    (∃ e, a.data? m = some e ∧ n ∈ e.children) ↔ n ∈ f.childIds m := by
  rw [Forest.mem_childIds]
  constructor
  · rintro ⟨e, he, hn⟩
    obtain ⟨t, ht, p, hfind, rfl⟩ := exists_find? h hf he
    exact ⟨p, (Forest.node?_eq_some hf).mpr ⟨t, ht, hfind⟩, hn⟩
  · rintro ⟨p, hp, hn⟩
    obtain ⟨t, ht, hfind⟩ := (Forest.node?_eq_some hf).mp hp
    exact ⟨_, data?_of_find? h hf ht hfind, hn⟩

/-- The stored roots are those of the forest. -/
theorem exists_root_iff : (∃ t ∈ a.trees, t.root = n) ↔ ∃ tree, f.root tree = .ok n := by
  constructor
  · rintro ⟨t, ht, rfl⟩
    rw [h.trees] at ht
    obtain ⟨u, hu, rfl⟩ := List.mem_map.mp ht
    exact ⟨u.id, (Forest.root_eq_ok hf).mpr ⟨u, hu, rfl, rfl⟩⟩
  · rintro ⟨tree, hroot⟩
    obtain ⟨u, hu, -, rfl⟩ := (Forest.root_eq_ok hf).mp hroot
    exact ⟨u.entry, h.trees ▸ List.mem_map.mpr ⟨u, hu, rfl⟩, rfl⟩

/-- From the roots of an arena that stores a forest, child links lead to every
    node on one way only. -/
theorem reached_once (hn : a.data? n = some d) : ∃ t ∈ a.trees, ∃ path, t.id = d.tree ∧
    a.follow path t.root = some n ∧
      ∀ t' ∈ a.trees, ∀ path', a.follow path' t'.root = some n → t' = t ∧ path' = path := by
  obtain ⟨t, ht, p, hfind, rfl⟩ := exists_find? h hf hn
  obtain ⟨path, hpath⟩ := ProofTree.exists_follow hfind
  have hid := ProofTree.id_of_find? hfind
  refine ⟨t.entry, h.trees ▸ List.mem_map.mpr ⟨t, ht, rfl⟩, path, rfl, ?_, ?_⟩
  · refine (follow_eq (h.stored t ht) path).trans ?_
    rw [hpath, Option.map_some, hid]
  · intro t' ht' path' hfollow
    rw [h.trees] at ht'
    obtain ⟨u, hu, rfl⟩ := List.mem_map.mp ht'
    have hids := Forest.nodup_ids hf hu
    obtain ⟨q, hq, hqid⟩ :=
      Option.map_eq_some_iff.mp ((follow_eq (h.stored u hu) path').symm.trans hfollow)
    -- the other way ends in the same tree, and there a handle has one path
    have hmem := ProofTree.mem_ids_of_find? (ProofTree.find?_of_follow hids hq)
    rw [hqid] at hmem
    cases Forest.tree_of_node hf hu ht hmem (ProofTree.mem_ids_of_find? hfind)
    exact ⟨rfl, ProofTree.follow_unique hids hq hpath (hqid.trans hid.symm)⟩

/-- The slots of the free list are the empty ones. -/
theorem mem_free_iff {i : Nat} :
    i ∈ a.free ↔ ∃ slot, a.nodes[i]? = some slot ∧ slot.data = none := by
  constructor
  · intro hi
    have hlt := (h.holds hf).free_lt i hi
    have hslot : a.nodes[i]? = some a.nodes[i] := List.getElem?_eq_getElem hlt
    have hempty := h.tidy ⟨i, a.nodes[i].generation⟩ hi
    rw [data?, hslot] at hempty
    exact ⟨_, hslot, (if_pos rfl).symm.trans hempty⟩
  · rintro ⟨slot, hslot, hempty⟩
    have hlt : i < a.slots.generations.length :=
      (length_slots a).symm ▸ (List.getElem?_eq_some_iff.mp hslot).1
    refine (h.holds hf).slots.mem_free_iff.mpr ⟨hlt, ?_⟩
    rintro n hn rfl
    -- a node in the slot would be stored there
    obtain ⟨d, hd⟩ := Option.isSome_iff_exists.mp
      ((isSome_data? h hf).mpr ((Forest.mem_ids_all hf).mp hn))
    rw [data?_eq_some.mp hd] at hslot
    cases hslot
    cases hempty

/-- **An arena that stores a forest is consistent.** -/
theorem Mirrors.consistent : a.Consistent where
  reached_once _ _ hn := Arena.reached_once h hf hn
  tree_nodup := by
    rw [h.trees, List.map_map]
    exact Forest.nodup_trees hf
  root_live t ht := by
    rw [h.trees] at ht
    obtain ⟨u, hu, rfl⟩ := List.mem_map.mp ht
    exact Option.isSome_iff_exists.mpr ⟨_, (h.stored u hu).top⟩
  child_live n d hn c hc := by
    obtain ⟨t, ht, p, hfind, rfl⟩ := exists_find? h hf hn
    obtain ⟨child, hchild, rfl⟩ := List.mem_map.mp hc
    have hnode := Forest.node?_child hf ((Forest.node?_eq_some hf).mpr ⟨t, ht, hfind⟩) hchild
    exact (isSome_data? h hf).mpr (Option.isSome_iff_exists.mpr ⟨_, hnode⟩)
  -- the stored parent is that of the forest, where the links are known to agree
  parent_iff n d hn m := by
    obtain ⟨t, -, p, -, rfl⟩ := exists_find? h hf hn
    exact (Forest.parent?_eq_some hf).trans (mem_children_iff h hf).symm
  root_iff n d hn := by
    obtain ⟨t, ht, p, hfind, rfl⟩ := exists_find? h hf hn
    have hlive : (f.node? n).isSome = true :=
      Option.isSome_iff_exists.mpr ⟨p, (Forest.node?_eq_some hf).mpr ⟨t, ht, hfind⟩⟩
    exact (Forest.parent?_eq_none hf hlive).trans (exists_root_iff h hf).symm
  open_bare n d hn hopen := by
    obtain ⟨t, -, p, -, rfl⟩ := exists_find? h hf hn
    cases p with
    | openNode node => exact ⟨rfl, rfl⟩
    | applied node rule skipped children => cases hopen
  applied_expands n d rule hn hrule := by
    obtain ⟨t, ht, p, hfind, rfl⟩ := exists_find? h hf hn
    have hnode := (Forest.node?_eq_some hf).mpr ⟨t, ht, hfind⟩
    obtain ⟨hlength, kids, hexpand, hpairs⟩ := Forest.expand_of_rule hf hnode hrule
    refine ⟨(List.length_map _).trans hlength, kids, hexpand, ?_⟩
    rw [ProofTree.stored, List.forall₂_map_left_iff]
    -- the sequents of the children are read off their own slots
    have hchildren : ∀ c ∈ p.children, ∃ e, a.data? c.id = some e ∧ e.sequent = c.sequent := by
      intro c hc
      obtain ⟨u, hu, hfind'⟩ := (Forest.node?_eq_some hf).mp (Forest.node?_child hf hnode hc)
      exact ⟨_, data?_of_find? h hf hu hfind', rfl⟩
    refine ((List.forall₂_and_left _ _).mpr ⟨hchildren, hpairs⟩).imp ?_
    rintro c kid ⟨⟨e, he, hsequent⟩, hsame⟩
    exact ⟨e, he, hsequent ▸ hsame⟩
  free_nodup := (h.holds hf).slots.free_nodup
  free_iff _ := mem_free_iff h hf
  counted := by
    refine ⟨_, (h.holds hf).slots.nodup, fun n => ?_, ?_⟩
    · rw [Forest.mem_ids_all hf, isSome_data? h hf]
    · rw [← (h.holds hf).slots.inUse, nodeCount, Slots.inUse, length_slots]
      rfl

/-- **An arena that stores a forest agrees with its answers.** -/
theorem Mirrors.agrees : a.Agrees f where
  node n p hnode := by
    obtain ⟨t, ht, hfind⟩ := (Forest.node?_eq_some hf).mp hnode
    exact ⟨t.id, Forest.treeOf_of_find? hf ht hfind, data?_of_find? h hf ht hfind⟩
  missing n hnode := h.data?_eq_none hf (Option.map_eq_none_iff.mp hnode)
  root_iff tree n := by
    rw [Forest.root_eq_ok hf, h.tree?]
    constructor
    · rintro ⟨t, ht, hid, hroot⟩
      rw [(Forest.tree?_eq_some hf).mpr ⟨ht, hid⟩]
      exact ⟨_, rfl, hroot⟩
    · rintro ⟨entry, hentry, hroot⟩
      obtain ⟨t, htree, rfl⟩ := Option.map_eq_some_iff.mp hentry
      obtain ⟨ht, hid⟩ := (Forest.tree?_eq_some hf).mp htree
      exact ⟨t, ht, hid, hroot⟩
  nodeCount := by
    rw [Forest.nodeCount, ← h.slots, Slots.inUse, length_slots]
    rfl
  notices := h.notices

end Mirrors

end Arena

/-! ## Sequences of operations -/

/-- The forest after a sequence of operations on no trees at all. -/
def Forest.after (ops : List Op) : Forest := ops.foldl Op.run Forest.empty

/-- The arena after the same operations, if all of them end. -/
def Arena.after (ops : List Op) : Option Arena :=
  ops.foldlM (fun a op => op.onArena a) Arena.empty

/-- A sequence of operations ends and stores the forest after it. -/
theorem Arena.foldlM_mirrors {allowed : Rule → Prop} {a : Arena} {f : Forest} {ops : List Op}
    (h : a.Mirrors f) (hf : (f.bench []).Wf allowed) (hops : ∀ op ∈ ops, op.Within allowed) :
    ∃ b, ops.foldlM (fun a op => op.onArena a) a = some b ∧ b.Mirrors (ops.foldl Op.run f) ∧
      ((ops.foldl Op.run f).bench []).Wf allowed := by
  induction ops generalizing a f with
  | nil => exact ⟨a, rfl, h, hf⟩
  | cons op ops ih =>
      obtain ⟨hop, hops⟩ := List.forall_mem_cons.mp hops
      obtain ⟨b, hrun, hb⟩ := Op.onArena_mirrors h hf hop
      obtain ⟨c, hrest, hc⟩ := ih hb (hf.moves (op.moves hf hop)) hops
      refine ⟨c, ?_, hc⟩
      rw [List.foldlM_cons, hrun]
      exact hrest

/-- **After any sequence of operations the fields are consistent and agree
    with the forest.** -/
theorem Arena.after_consistent {ops : List Op} (hops : ∀ op ∈ ops, op.Within fun _ => True) :
    ∃ a, Arena.after ops = some a ∧ a.Consistent ∧ a.Agrees (Forest.after ops) := by
  obtain ⟨a, hrun, hmirrors, hwf⟩ :=
    foldlM_mirrors empty_mirrors Forest.ReachableWith.empty.wf hops
  exact ⟨a, hrun, hmirrors.consistent hwf, hmirrors.agrees hwf⟩

/-- A proof is moved to another tree in a batch, copied there and taken off
    the copy again; a slot is used twice and given back. -/
def Arena.shuffled : List Op :=
  [.createTree ⟨.empty, SortedBy.ofList [⟨.top, .given, .plain⟩], .bottom⟩ none,
    .createTree ⟨.empty, SortedBy.ofList [⟨.top, .derived, .plain⟩], .bottom⟩ none,
    .applyRule ⟨1, 0⟩ Forest.waiving, .beginBatch ⟨0⟩, .graft ⟨0, 0⟩ ⟨1⟩, .removeTree ⟨1⟩,
    .createTree ⟨.empty, .empty, .top⟩ none, .copySubtree ⟨0, 0⟩, .pruneChildren ⟨3, 0⟩,
    .removeTree ⟨2⟩, .endBatch ⟨0⟩]

theorem Arena.shuffled_consistent : ∃ a, Arena.after shuffled = some a ∧
    (a.data? ⟨2, 0⟩).map (fun d => (d.tree, d.parent)) = some (⟨0⟩, some ⟨0, 0⟩) ∧
      (a.data? ⟨4, 0⟩).map (fun d => (d.tree, d.parent)) = some (⟨4⟩, none) ∧
        a.free = [1] ∧ a.nodeCount = 4 ∧ a.Consistent ∧ a.Agrees (Forest.after shuffled) := by
  have hgiven : Sequent.WellTyped
      ⟨.empty, SortedBy.ofList [⟨.top, .given, .plain⟩], .bottom⟩ := by decide +kernel
  have hderived : Sequent.WellTyped
      ⟨.empty, SortedBy.ofList [⟨.top, .derived, .plain⟩], .bottom⟩ := by decide +kernel
  have hplain : Sequent.WellTyped ⟨.empty, .empty, .top⟩ := by decide +kernel
  have hops : ∀ op ∈ shuffled, op.Within fun _ => True := by
    simp only [shuffled, List.forall_mem_cons, Op.Within]
    exact ⟨hgiven, hderived, trivial, trivial, trivial, trivial, hplain, trivial, trivial,
      trivial, trivial, List.forall_mem_nil _⟩
  let a := (Arena.after shuffled).get (by decide +kernel)
  have hrun : Arena.after shuffled = some a := (Option.some_get _).symm
  obtain ⟨b, hb, hconsistent, hagrees⟩ := after_consistent hops
  have hsame : b = a := Option.some.inj (hb.symm.trans hrun)
  exact ⟨a, hrun, by decide +kernel, by decide +kernel, by decide +kernel, by decide +kernel,
    hsame ▸ hconsistent, hsame ▸ hagrees⟩

end SequentProver
