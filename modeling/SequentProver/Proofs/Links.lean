import SequentProver.Proofs.Origins
import SequentProver.Proofs.Reachable

/-! # Links between nodes

    What a forest finds by searching its trees, in terms of the links from
    nodes to their children.

    Route:
    1. `follow`, the subtree at a path of child positions: every node has one
       path;
    2. the parent of a node in a tree, the one that has it as a child;
    3. looking up nodes, trees and parents in a forest that is in order, and
       following the links there;
    4. a forest where a proof was moved from tree to tree, for use in
       examples. -/

namespace SequentProver

/-! ## Paths -/

namespace ProofTree

variable {t p q : ProofTree} {n m : NodeId}

/-- The subtree at a path, which names a child at each node on the way. -/
def follow : List Nat → ProofTree → Option ProofTree
  | [], t => some t
  | i :: path, t => t.children[i]?.bind (follow path)

/-- A longer path is followed one part after the other. -/
theorem follow_append (path path' : List Nat) (t : ProofTree) :
    t.follow (path ++ path') = (t.follow path).bind (follow path') := by
  induction path generalizing t with
  | nil => rfl
  | cons i path ih =>
      rw [List.cons_append, follow, follow, Option.bind_assoc]
      exact Option.bind_congr fun c _ => ih c

/-- A subtree at a path is found by its handle. -/
theorem find?_of_follow {path : List Nat} (hids : t.ids.Nodup) (h : t.follow path = some p) :
    t.find? p.id = some p := by
  induction path generalizing t with
  | nil =>
      cases h
      exact p.find?_id
  | cons i path ih =>
      obtain ⟨c, hc, hrest⟩ := Option.bind_eq_some_iff.mp h
      have hmem : c ∈ t.children := List.mem_of_getElem? hc
      exact find?_of_child hids hmem (ih (nodup_ids_child hids hmem) hrest)

/-- A subtree that is found stands at some path. -/
theorem exists_follow (h : t.find? n = some p) : ∃ path, t.follow path = some p := by
  induction t using children_induct with
  | step t ih =>
      rw [find?_eq] at h
      split at h
      · cases h
        exact ⟨[], rfl⟩
      · obtain ⟨c, hc, hfound⟩ := List.exists_of_findSome?_eq_some h
        obtain ⟨path, hpath⟩ := ih c hc hfound
        obtain ⟨i, hi⟩ := List.mem_iff_getElem?.mp hc
        exact ⟨i :: path, Option.bind_eq_some_iff.mpr ⟨c, hi, hpath⟩⟩

/-- No path that takes a step leads back to the top. -/
theorem id_ne_of_follow {i : Nat} {path : List Nat} (hids : t.ids.Nodup)
    (h : t.follow (i :: path) = some p) : p.id ≠ t.id := by
  obtain ⟨c, hc, hrest⟩ := Option.bind_eq_some_iff.mp h
  have hmem : c ∈ t.children := List.mem_of_getElem? hc
  have hfind := find?_of_follow (nodup_ids_child hids hmem) hrest
  rw [ids_eq, List.nodup_cons] at hids
  intro hid
  exact hids.1 (List.mem_flatMap.mpr ⟨c, hmem, hid ▸ mem_ids_of_find? hfind⟩)

/-- Different children have no handle in common. -/
theorem child_unique {i j : Nat} {c d : ProofTree} (hids : t.ids.Nodup)
    (hc : t.children[i]? = some c) (hd : t.children[j]? = some d) (hn : n ∈ c.ids)
    (hn' : n ∈ d.ids) : i = j := by
  obtain ⟨hi, rfl⟩ := List.getElem?_eq_some_iff.mp hc
  obtain ⟨hj, rfl⟩ := List.getElem?_eq_some_iff.mp hd
  rw [ids_eq, List.nodup_cons, List.nodup_flatMap] at hids
  have hdisjoint := List.pairwise_iff_getElem.mp hids.2.2
  rcases Nat.lt_trichotomy i j with hlt | heq | hlt
  · exact absurd hn' (List.disjoint_left.mp (hdisjoint i j hi hj hlt) hn)
  · exact heq
  · exact absurd hn (List.disjoint_left.mp (hdisjoint j i hj hi hlt) hn')

/-- A handle stands at one path only. -/
theorem follow_unique {path path' : List Nat} (hids : t.ids.Nodup)
    (h : t.follow path = some p) (h' : t.follow path' = some q) (hid : p.id = q.id) :
    path = path' := by
  induction path generalizing t path' with
  | nil =>
      cases h
      cases path' with
      | nil => rfl
      | cons j path' => exact absurd hid.symm (id_ne_of_follow hids h')
  | cons i path ih =>
      cases path' with
      | nil =>
          cases h'
          exact absurd hid (id_ne_of_follow hids h)
      | cons j path' =>
          obtain ⟨c, hc, hrest⟩ := Option.bind_eq_some_iff.mp h
          obtain ⟨d, hd, hrest'⟩ := Option.bind_eq_some_iff.mp h'
          -- both ends lie below the child that the path enters, and lie below no other
          have hcids := nodup_ids_child hids (List.mem_of_getElem? hc)
          have hdids := nodup_ids_child hids (List.mem_of_getElem? hd)
          have hp := mem_ids_of_find? (find?_of_follow hcids hrest)
          have hq := mem_ids_of_find? (find?_of_follow hdids hrest')
          have hij : i = j := child_unique hids hc hd hp (hid ▸ hq)
          subst hij
          cases hc.symm.trans hd
          rw [ih hcids hrest hrest']

/-- The place of a child, one step behind the place of its parent. -/
theorem exists_follow_child (hfind : t.find? m = some p) (hchild : n ∈ p.children.map id) :
    ∃ path i c, t.follow path = some p ∧ t.follow (path ++ [i]) = some c ∧ c.id = n := by
  obtain ⟨c, hc, rfl⟩ := List.mem_map.mp hchild
  obtain ⟨path, hpath⟩ := exists_follow hfind
  obtain ⟨i, hi⟩ := List.mem_iff_getElem?.mp hc
  refine ⟨path, i, c, hpath, ?_, rfl⟩
  rw [follow_append, hpath, Option.bind_some, follow, hi]
  rfl

/-! ## Parents -/

/-- The parent of a node among siblings, one by one. -/
theorem parentAmong?_eq (n : NodeId) (ts : List ProofTree) :
    parentAmong? n ts = ts.findSome? (parent? n) := by
  induction ts with
  | nil => rfl
  | cons t rest ih =>
      rw [parentAmong?, ih, List.findSome?_cons]
      cases parent? n t with
      | none => rfl
      | some found => rfl

/-- The parent of a node: the top, if the node is one of its children, and else
    the parent inside a child. -/
theorem parent?_eq (n : NodeId) (t : ProofTree) :
    t.parent? n =
      if n ∈ t.children.map id then some t.id else t.children.findSome? (parent? n) := by
  cases t with
  | openNode node => rfl
  | applied node rule skipped children =>
      have hany : (children.any fun c => c.id = n) = decide (n ∈ children.map id) := by
        rw [Bool.eq_iff_iff, List.any_eq_true, decide_eq_true_eq, List.mem_map]
        simp only [decide_eq_true_eq]
      rw [parent?, hany, parentAmong?_eq]
      simp only [decide_eq_true_eq]
      rfl

/-- A node that has a child is found, with the child. -/
theorem find?_of_parent? (hids : t.ids.Nodup) (h : t.parent? n = some m) :
    ∃ p, t.find? m = some p ∧ n ∈ p.children.map id := by
  induction t using children_induct with
  | step t ih =>
      rw [parent?_eq] at h
      split at h
      · rename_i hmem
        cases h
        exact ⟨t, t.find?_id, hmem⟩
      · obtain ⟨c, hc, hparent⟩ := List.exists_of_findSome?_eq_some h
        obtain ⟨p, hfind, hmem⟩ := ih c hc (nodup_ids_child hids hc) hparent
        exact ⟨p, find?_of_child hids hc hfind, hmem⟩

/-- What has a parent is in the tree. -/
theorem mem_ids_of_parent? (hids : t.ids.Nodup) (h : t.parent? n = some m) : n ∈ t.ids := by
  obtain ⟨p, hfind, hchild⟩ := find?_of_parent? hids h
  obtain ⟨path, i, c, -, hc, rfl⟩ := exists_follow_child hfind hchild
  exact mem_ids_of_find? (find?_of_follow hids hc)

/-- Every node but the one at the top has a parent. -/
theorem exists_parent? (h : n ∈ t.ids) (hne : n ≠ t.id) : ∃ m, t.parent? n = some m := by
  induction t using children_induct with
  | step t ih =>
      rw [parent?_eq]
      split
      · exact ⟨t.id, rfl⟩
      · rename_i hnot
        rw [ids_eq, List.mem_cons, List.mem_flatMap] at h
        obtain ⟨c, hc, hmem⟩ := h.resolve_left hne
        have hcne : n ≠ c.id := fun heq => hnot (List.mem_map.mpr ⟨c, hc, heq.symm⟩)
        obtain ⟨m, hm⟩ := ih c hc hmem hcne
        rw [← Option.isSome_iff_exists, List.findSome?_isSome_iff]
        exact ⟨c, hc, Option.isSome_iff_exists.mpr ⟨m, hm⟩⟩

/-- The node at the top has no parent. -/
theorem parent?_id (hids : t.ids.Nodup) : t.parent? t.id = none := by
  cases h : t.parent? t.id with
  | none => rfl
  | some m =>
      obtain ⟨p, hfind, hchild⟩ := find?_of_parent? hids h
      obtain ⟨path, i, c, -, hc, hid⟩ := exists_follow_child hfind hchild
      -- a path to the top has no steps
      have hnil : path ++ [i] = [] := follow_unique hids hc (p := c) (q := t) rfl hid
      exact absurd hnil (List.append_ne_nil_of_right_ne_nil _ (List.cons_ne_nil _ _))

/-- The parent of a node is the one node that has it as a child. -/
theorem parent?_eq_some (hids : t.ids.Nodup) :
    t.parent? n = some m ↔ ∃ p, t.find? m = some p ∧ n ∈ p.children.map id := by
  refine ⟨find?_of_parent? hids, ?_⟩
  rintro ⟨p, hfind, hchild⟩
  obtain ⟨path, i, c, hpath, hc, hid⟩ := exists_follow_child hfind hchild
  have hmem : n ∈ t.ids := hid ▸ mem_ids_of_find? (find?_of_follow hids hc)
  have hne : n ≠ t.id := fun heq =>
    absurd (follow_unique hids hc (q := t) rfl (hid.trans heq))
      (List.append_ne_nil_of_right_ne_nil _ (List.cons_ne_nil _ _))
  -- two places of the child are one step behind one place
  obtain ⟨m', hm'⟩ := exists_parent? hmem hne
  obtain ⟨p', hfind', hchild'⟩ := find?_of_parent? hids hm'
  obtain ⟨path', j, c', hpath', hc', hid'⟩ := exists_follow_child hfind' hchild'
  have hsame := follow_unique hids hc hc' (hid.trans hid'.symm)
  have hpaths : path = path' := (List.append_inj_left' hsame rfl)
  subst hpaths
  cases hpath.symm.trans hpath'
  rw [hm', ← id_of_find? hfind, ← id_of_find? hfind']

end ProofTree

namespace Forest

variable {allowed : Rule → Prop} {f : Forest} {t u : Tree} {n m : NodeId} {p : ProofTree}
  {tree : TreeId}

/-! ## Looking up in a forest in order -/

section Lookup

variable (h : (f.bench []).Wf allowed)
include h

/-- No handle is twice in a tree. -/
theorem nodup_ids (ht : t ∈ f.trees) : t.proof.ids.Nodup :=
  h.ids_nodup (Bench.mem_all_of_mem (List.mem_map.mpr ⟨t, ht, rfl⟩))

/-- No two trees have the same handle. -/
theorem nodup_trees : (f.trees.map Tree.id).Nodup := by
  have hnodup := h.tree_nodup
  rwa [bench, List.map_map] at hnodup

/-- A tree is found by its handle. -/
theorem tree?_eq_some : f.tree? tree = some t ↔ t ∈ f.trees ∧ t.id = tree :=
  find?_key_eq_some (nodup_trees h)

/-- A node is found with the tree that has it. -/
theorem locate?_eq_some : f.locate? n = some (t, p) ↔ t ∈ f.trees ∧ t.proof.find? n = some p := by
  constructor
  · intro hlocate
    obtain ⟨u, hu, hfound⟩ := List.exists_of_findSome?_eq_some hlocate
    obtain ⟨q, hq, heq⟩ := Option.map_eq_some_iff.mp hfound
    cases heq
    exact ⟨hu, hq⟩
  · rintro ⟨ht, hfind⟩
    have located := h.locate?_eq (List.mem_map.mpr ⟨t, ht, rfl⟩) hfind
    rw [locate?_bench] at located
    obtain ⟨⟨u, q⟩, hlocate, heq⟩ := Option.map_eq_some_iff.mp located
    obtain ⟨hid, rfl⟩ := Prod.mk.inj heq
    -- a tree is known by its handle
    obtain ⟨u', hu, hfound⟩ := List.exists_of_findSome?_eq_some hlocate
    obtain ⟨q', -, heq'⟩ := Option.map_eq_some_iff.mp hfound
    cases heq'
    rwa [List.inj_on_of_nodup_map (nodup_trees h) hu ht hid] at hlocate

/-- A node is found if some tree has it. -/
theorem node?_eq_some : f.node? n = some p ↔ ∃ t ∈ f.trees, t.proof.find? n = some p := by
  rw [node?, Option.map_eq_some_iff]
  constructor
  · rintro ⟨⟨t, q⟩, hlocate, rfl⟩
    exact ⟨t, (locate?_eq_some h).mp hlocate⟩
  · rintro ⟨t, ht⟩
    exact ⟨(t, p), (locate?_eq_some h).mpr ht, rfl⟩

/-- The nodes are those of the trees. -/
theorem isSome_node? : (f.node? n).isSome = true ↔ ∃ t ∈ f.trees, n ∈ t.proof.ids := by
  rw [Option.isSome_iff_exists]
  constructor
  · rintro ⟨p, hp⟩
    obtain ⟨t, ht, hfind⟩ := (node?_eq_some h).mp hp
    exact ⟨t, ht, ProofTree.mem_ids_of_find? hfind⟩
  · rintro ⟨t, ht, hmem⟩
    obtain ⟨p, hp⟩ := Option.isSome_iff_exists.mp (ProofTree.isSome_find?.mpr hmem)
    exact ⟨p, (node?_eq_some h).mpr ⟨t, ht, hp⟩⟩

/-- A node is in one tree only. -/
theorem tree_of_node (ht : t ∈ f.trees) (hu : u ∈ f.trees) (hn : n ∈ t.proof.ids)
    (hn' : n ∈ u.proof.ids) : t = u := by
  obtain ⟨p, hp⟩ := Option.isSome_iff_exists.mp (ProofTree.isSome_find?.mpr hn)
  obtain ⟨q, hq⟩ := Option.isSome_iff_exists.mp (ProofTree.isSome_find?.mpr hn')
  have hsame := ((locate?_eq_some h).mpr ⟨ht, hp⟩).symm.trans ((locate?_eq_some h).mpr ⟨hu, hq⟩)
  exact congrArg Prod.fst (Option.some.inj hsame)

/-- A node of a tree has that tree. -/
theorem treeOf_of_find? (ht : t ∈ f.trees) (hfind : t.proof.find? n = some p) :
    f.treeOf n = .ok t.id := by
  rw [treeOf, (locate?_eq_some h).mpr ⟨ht, hfind⟩]

/-- The root of a tree is the node at the top of its proof. -/
theorem root_eq_ok : f.root tree = .ok n ↔ ∃ t ∈ f.trees, t.id = tree ∧ t.proof.id = n := by
  rw [root, treeOrError]
  constructor
  · intro hroot
    split at hroot
    · rename_i t htree
      cases hroot
      obtain ⟨ht, hid⟩ := (tree?_eq_some h).mp htree
      exact ⟨t, ht, hid, rfl⟩
    · exact nomatch hroot
  · rintro ⟨t, ht, hid, rfl⟩
    rw [(tree?_eq_some h).mpr ⟨ht, hid⟩]
    rfl

/-- A tree of the workbench has the root that is asked for. -/
theorem root_of_mem {proof : ProofTree} (hmem : (tree, proof) ∈ (f.bench []).proofs) :
    f.root tree = .ok proof.id := by
  obtain ⟨t, ht, heq⟩ := List.mem_map.mp hmem
  cases heq
  exact (root_eq_ok h).mpr ⟨t, ht, rfl, rfl⟩

/-- A node of a tree of the workbench is found. -/
theorem node?_of_mem {proof : ProofTree} (hmem : (tree, proof) ∈ (f.bench []).proofs)
    (hfind : proof.find? n = some p) : f.node? n = some p := by
  obtain ⟨t, ht, heq⟩ := List.mem_map.mp hmem
  cases heq
  exact (node?_eq_some h).mpr ⟨t, ht, hfind⟩

/-- The children of a node are found by their handles. -/
theorem node?_child {c : ProofTree} (hnode : f.node? n = some p) (hc : c ∈ p.children) :
    f.node? c.id = some c := by
  obtain ⟨t, ht, hfind⟩ := (node?_eq_some h).mp hnode
  have hids := nodup_ids h ht
  refine (node?_eq_some h).mpr ⟨t, ht, ProofTree.find?_trans hids hfind ?_⟩
  exact ProofTree.find?_child (ProofTree.nodup_ids_find? hids hfind) hc

end Lookup

/-! ## Following child links -/

/-- The node at a path of child positions below a node. -/
def follow (f : Forest) : List Nat → NodeId → Option NodeId
  | [], n => some n
  | i :: path, n => (f.childIds n)[i]?.bind (f.follow path)

/-- The children that are listed for a node are those in its tree. -/
theorem childIds_of_node? (hnode : f.node? n = some p) :
    f.childIds n = p.children.map ProofTree.id := by
  rw [childIds, hnode]

/-- Child links lead where the tree says. -/
theorem follow_eq (h : (f.bench []).Wf allowed) (hnode : f.node? n = some p) (path : List Nat) :
    f.follow path n = (p.follow path).map ProofTree.id := by
  induction path generalizing n p with
  | nil =>
      obtain ⟨t, -, hfind⟩ := (node?_eq_some h).mp hnode
      rw [follow, ProofTree.follow, Option.map_some, ProofTree.id_of_find? hfind]
  | cons i path ih =>
      rw [follow, ProofTree.follow, childIds_of_node? hnode, List.getElem?_map]
      cases hc : p.children[i]? with
      | none => rfl
      | some c => exact ih (node?_child h hnode (List.mem_of_getElem? hc))

/-! ## Parents and children in a forest -/

/-- The children of a node, by the subtree at the node. -/
theorem mem_childIds : n ∈ f.childIds m ↔
    ∃ p, f.node? m = some p ∧ n ∈ p.children.map ProofTree.id := by
  rw [childIds]
  cases hnode : f.node? m with
  | none =>
      constructor
      · exact fun hn => nomatch hn
      · rintro ⟨p, hp, -⟩
        exact nomatch hp
  | some p =>
      constructor
      · exact fun hn => ⟨p, rfl, hn⟩
      · rintro ⟨q, hq, hn⟩
        cases hq
        exact hn

section Parents

variable (h : (f.bench []).Wf allowed)
include h

/-- The parent of a node is the one node that lists it as a child. -/
theorem parent?_eq_some : f.parent? n = some m ↔ n ∈ f.childIds m := by
  rw [mem_childIds]
  constructor
  · intro hparent
    obtain ⟨t, ht, hm⟩ := List.exists_of_findSome?_eq_some hparent
    obtain ⟨p, hfind, hchild⟩ := (ProofTree.parent?_eq_some (nodup_ids h ht)).mp hm
    exact ⟨p, (node?_eq_some h).mpr ⟨t, ht, hfind⟩, hchild⟩
  · rintro ⟨p, hnode, hchild⟩
    obtain ⟨t, ht, hfind⟩ := (node?_eq_some h).mp hnode
    have hparent := (ProofTree.parent?_eq_some (nodup_ids h ht)).mpr ⟨p, hfind, hchild⟩
    -- only this tree has the child
    have hsome : (f.parent? n).isSome = true :=
      List.findSome?_isSome_iff.mpr ⟨t, ht, Option.isSome_iff_exists.mpr ⟨m, hparent⟩⟩
    obtain ⟨m', hm'⟩ := Option.isSome_iff_exists.mp hsome
    obtain ⟨u, hu, huparent⟩ := List.exists_of_findSome?_eq_some hm'
    cases tree_of_node h hu ht (ProofTree.mem_ids_of_parent? (nodup_ids h hu) huparent)
      (ProofTree.mem_ids_of_parent? (nodup_ids h ht) hparent)
    rw [hm', ← huparent, hparent]

/-- The parent of a node is found in its own tree. -/
theorem parent?_eq (ht : t ∈ f.trees) (hn : n ∈ t.proof.ids) :
    f.parent? n = t.proof.parent? n := by
  refine Option.ext fun m => ?_
  rw [parent?_eq_some h, mem_childIds, ProofTree.parent?_eq_some (nodup_ids h ht)]
  constructor
  · rintro ⟨p, hp, hchild⟩
    obtain ⟨u, hu, hfind⟩ := (node?_eq_some h).mp hp
    have hparent := (ProofTree.parent?_eq_some (nodup_ids h hu)).mpr ⟨p, hfind, hchild⟩
    have hmem := ProofTree.mem_ids_of_parent? (nodup_ids h hu) hparent
    rw [tree_of_node h ht hu hn hmem]
    exact ⟨p, hfind, hchild⟩
  · rintro ⟨p, hfind, hchild⟩
    exact ⟨p, (node?_eq_some h).mpr ⟨t, ht, hfind⟩, hchild⟩

/-- The nodes without a parent are the roots. -/
theorem parent?_eq_none (hlive : (f.node? n).isSome = true) :
    f.parent? n = none ↔ ∃ tree, f.root tree = .ok n := by
  obtain ⟨t, ht, hmem⟩ := (isSome_node? h).mp hlive
  constructor
  · intro hnone
    -- a node is the root of its tree or below some node of it
    by_cases hid : n = t.proof.id
    · exact ⟨t.id, (root_eq_ok h).mpr ⟨t, ht, rfl, hid.symm⟩⟩
    · obtain ⟨m, hm⟩ := ProofTree.exists_parent? hmem hid
      rw [List.findSome?_eq_none_iff.mp hnone t ht] at hm
      exact nomatch hm
  · rintro ⟨tree, hroot⟩
    obtain ⟨u, hu, -, rfl⟩ := (root_eq_ok h).mp hroot
    -- a root has no parent in its own tree, and is in no other
    cases hparent : f.parent? u.proof.id with
    | none => rfl
    | some m =>
        obtain ⟨v, hv, hm⟩ := List.exists_of_findSome?_eq_some hparent
        cases tree_of_node h hv hu (ProofTree.mem_ids_of_parent? (nodup_ids h hv) hm)
          u.proof.id_mem_ids
        rw [ProofTree.parent?_id (nodup_ids h hv)] at hm
        exact nomatch hm

/-- Below a rule are the children that it gives on the sequent of the node,
    whatever sequent it was applied to. -/
theorem expand_of_rule {rule : Rule} (hnode : f.node? n = some p)
    (hrule : p.rule? = some rule) :
    p.children.length = rule.antecedents.length ∧
      ∃ kids, rule.expand p.sequent = some (kids, p.skipped) ∧
        List.Forall₂ (fun c kid => c.sequent.sameAs kid = true) p.children kids := by
  obtain ⟨⟨t, q⟩, located, rfl⟩ := Option.map_eq_some_iff.mp hnode
  obtain ⟨-, s, hsame, hexpand⟩ :=
    (h.of_locate? (locate?_bench_of located [])).2.top.step rule hrule
  -- the rule was applied to a sequent that is the same
  obtain ⟨kids, hkids, hpairs⟩ := Rule.expand_of_sameAs hsame hexpand
  rw [List.forall₂_map_left_iff] at hpairs
  refine ⟨?_, kids, hkids, hpairs⟩
  rw [hpairs.length_eq, Rule.length_expand hkids]

/-- The handles in use are those of nodes. -/
theorem mem_ids_all : n ∈ (f.bench []).all.flatMap ProofTree.ids ↔
    (f.node? n).isSome = true := by
  rw [isSome_node? h, List.mem_flatMap, Bench.all, bench, List.append_nil, List.map_map]
  constructor
  · rintro ⟨p, hp, hn⟩
    obtain ⟨t, ht, rfl⟩ := List.mem_map.mp hp
    exact ⟨t, ht, hn⟩
  · rintro ⟨t, ht, hn⟩
    exact ⟨t.proof, List.mem_map.mpr ⟨t, ht, rfl⟩, hn⟩

end Parents

/-! ## A proof that was moved -/

/-- A rule that asks for `⊤` in place of any goal. -/
def waiving : Rule where
  reasoner := "waive"
  display := "waive"
  confidence := .reviewedMax
  antecedents := [{ goal := some .top }]

/-- A proof of a sequent with a derived hypothesis, moved in a batch to a tree
    where the hypothesis is given; its old root is removed and the slot used
    again. -/
def moved : Forest :=
  let f := (Forest.empty.createTree ⟨.empty, SortedBy.ofList [⟨.top, .given, .plain⟩], .bottom⟩
    none).2
  let f := (f.createTree ⟨.empty, SortedBy.ofList [⟨.top, .derived, .plain⟩], .bottom⟩ none).2
  let f := (f.applyRule ⟨1, 0⟩ waiving).2.beginBatch ⟨0⟩
  let f := ((f.graft ⟨0, 0⟩ ⟨1⟩).2.setComment ⟨2, 0⟩ "later").2
  ((f.removeTree ⟨1⟩).2.createTree ⟨.empty, .empty, .top⟩ none).2

theorem moved_reachable (hwaiving : allowed waiving) : ReachableWith allowed moved := by
  have hgiven : Sequent.WellTyped
      ⟨.empty, SortedBy.ofList [⟨.top, .given, .plain⟩], .bottom⟩ := by decide +kernel
  have hderived : Sequent.WellTyped
      ⟨.empty, SortedBy.ofList [⟨.top, .derived, .plain⟩], .bottom⟩ := by decide +kernel
  have hplain : Sequent.WellTyped ⟨.empty, .empty, .top⟩ := by decide +kernel
  have hgrown : ReachableWith allowed _ := .step (.applyRule ⟨1, 0⟩ waiving)
    (.step (.createTree _ none) (.step (.createTree _ none) .empty hgiven) hderived) hwaiving
  have hgrafted : ReachableWith allowed _ :=
    .step (.graft ⟨0, 0⟩ ⟨1⟩) (.step (.beginBatch ⟨0⟩) hgrown trivial) trivial
  exact .step (.createTree _ none) (.step (.removeTree ⟨1⟩)
    (.step (.setComment ⟨2, 0⟩ "later") hgrafted trivial) trivial) hplain

end Forest

end SequentProver
