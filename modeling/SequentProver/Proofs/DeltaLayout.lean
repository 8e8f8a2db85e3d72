import SequentProver.Proofs.ChangeAccount

/-! # How a delta is laid out

    A delta is the tree cut down to what is recorded.  It has the recorded
    nodes that are in the tree and the nodes above them, and no others; each
    of its nodes has those children that are in the delta, in the order of the
    tree.  Its flags are the unions of what is recorded.

    Route:
    1. when a tree has a delta, and of which nodes, listed parents first;
    2. where each node of the delta is in the tree;
    3. `Exact`, all that a delta says of a tree and its records. -/

namespace SequentProver

/-! ## Nodes of a delta -/

namespace NodeDelta

mutual

/-- The handles of all nodes of a delta, parents first. -/
def ids : NodeDelta → List NodeId
  | .mk node _ children => node :: idsAmong children

/-- The handles in deltas of siblings, parents first. -/
def idsAmong : List NodeDelta → List NodeId
  | [] => []
  | d :: rest => ids d ++ idsAmong rest

end

/-- Handles of siblings, tree by tree. -/
theorem idsAmong_eq (ds : List NodeDelta) : idsAmong ds = ds.flatMap ids := by
  induction ds with
  | nil => rfl
  | cons d rest ih => rw [idsAmong, ih, List.flatMap_cons]

/-- Changed nodes of siblings, tree by tree. -/
theorem changedAmong_eq (ds : List NodeDelta) : changedAmong ds = ds.flatMap changed := by
  induction ds with
  | nil => rfl
  | cons d rest ih => rw [changedAmong, ih, List.flatMap_cons]

end NodeDelta

namespace ProofTree

variable {t p : ProofTree} {n : NodeId} {records : List Record} {d e : NodeDelta}

/-- A delta has the node at the top, and below it the deltas of the children
    that have one. -/
theorem eq_of_delta? (h : t.delta? records = some d) :
    d = .mk t.id (recordedFlags records t.id) (t.children.filterMap (delta? records)) := by
  rw [delta?_eq, deltaAt] at h
  split at h
  · exact (Option.some.inj h).symm
  · cases h

/-- Where there is no delta, nothing is recorded at the node or below it. -/
theorem delta?_eq_none (h : t.delta? records = none) :
    isRecorded records t.id = false ∧ ∀ c ∈ t.children, c.delta? records = none := by
  rw [delta?_eq, deltaAt] at h
  split at h
  · cases h
  · rename_i hnone
    rw [Bool.not_eq_true, Bool.or_eq_false_iff, Bool.not_eq_false', List.isEmpty_iff,
      List.filterMap_eq_nil_iff] at hnone
    exact hnone

/-- Only what is recorded gives a delta. -/
theorem exists_recorded_of_delta? (h : t.delta? records = some d) :
    ∃ m ∈ t.ids, isRecorded records m = true := by
  induction t using children_induct generalizing d with
  | step t ih =>
      by_cases htop : isRecorded records t.id = true
      · exact ⟨t.id, t.id_mem_ids, htop⟩
      · rw [delta?_eq, deltaAt, Bool.eq_false_iff.mpr htop, Bool.false_or] at h
        split at h
        · rename_i hbelow
          rw [Bool.not_eq_true', List.isEmpty_eq_false_iff_exists_mem] at hbelow
          obtain ⟨e, he⟩ := hbelow
          obtain ⟨c, hc, hdelta⟩ := List.mem_filterMap.mp he
          obtain ⟨m, hm, hrecorded⟩ := ih c hc hdelta
          refine ⟨m, ?_, hrecorded⟩
          rw [ids_eq]
          exact List.mem_cons_of_mem _ (List.mem_flatMap.mpr ⟨c, hc, hm⟩)
        · cases h

/-- A tree has a delta exactly when one of its nodes is recorded. -/
theorem isSome_delta? :
    (t.delta? records).isSome = true ↔ ∃ m ∈ t.ids, isRecorded records m = true := by
  constructor
  · intro h
    obtain ⟨d, hd⟩ := Option.isSome_iff_exists.mp h
    exact exists_recorded_of_delta? hd
  · rintro ⟨m, hm, hrecorded⟩
    obtain ⟨d, hd, -⟩ := exists_delta? hm hrecorded
    rw [hd]
    rfl

section Keep

variable {keep : NodeId → Bool}

/-- Where there is no delta, no node is kept. -/
theorem filter_ids_of_no_delta
    (hkeep : t.Everywhere fun p => keep p.id = (p.delta? records).isSome)
    (h : t.delta? records = none) : t.ids.filter keep = [] := by
  induction t using children_induct with
  | step t ih =>
      have htop : keep t.id = false := by rw [hkeep.top, h]; rfl
      rw [ids_eq, List.filter_cons, if_neg (Bool.eq_false_iff.mp htop), List.filter_flatMap,
        List.flatMap_eq_nil_iff]
      intro c hc
      exact ih c hc (hkeep.child c hc) ((delta?_eq_none h).2 c hc)

/-- The nodes of a delta are those of the tree that have a delta themselves,
    in the order of the tree. -/
theorem ids_of_delta? (hkeep : t.Everywhere fun p => keep p.id = (p.delta? records).isSome)
    (h : t.delta? records = some d) : d.ids = t.ids.filter keep := by
  induction t using children_induct generalizing d with
  | step t ih =>
      have htop : keep t.id = true := by rw [hkeep.top, h]; rfl
      rw [eq_of_delta? h, NodeDelta.ids, NodeDelta.idsAmong_eq, ids_eq, List.filter_cons,
        if_pos htop, List.filter_flatMap]
      refine congrArg (t.id :: ·) ?_
      -- a child without a delta has no part in either list
      have hbelow : ∀ ts : List ProofTree, ts ⊆ t.children →
          (ts.filterMap (delta? records)).flatMap NodeDelta.ids =
            ts.flatMap fun c => c.ids.filter keep := by
        intro ts hts
        induction ts with
        | nil => rfl
        | cons c rest ihrest =>
            obtain ⟨hc, hrest⟩ := List.cons_subset.mp hts
            rw [List.flatMap_cons, List.filterMap_cons, ← ihrest hrest]
            cases hdelta : c.delta? records with
            | none => rw [filter_ids_of_no_delta (hkeep.child c hc) hdelta, List.nil_append]
            | some e => rw [List.flatMap_cons, ih c hc (hkeep.child c hc) hdelta]
      exact hbelow t.children (List.Subset.refl _)

end Keep

/-- The node has a delta in the tree. -/
def hasDelta (records : List Record) (t : ProofTree) (n : NodeId) : Bool :=
  (t.find? n).any fun p => (p.delta? records).isSome

/-- Looked up by its handle, a subtree has a delta if it has one by itself. -/
theorem everywhere_hasDelta (hids : t.ids.Nodup) :
    t.Everywhere fun p => hasDelta records t p.id = (p.delta? records).isSome := by
  by_contra hnot
  obtain ⟨n, p, hfind, hp⟩ := exists_find?_of_not_everywhere hids hnot
  apply hp
  rw [hasDelta, id_of_find? hfind, hfind, Option.any_some]

/-- The delta has the recorded nodes and all nodes above them. -/
theorem hasDelta_iff (hids : t.ids.Nodup) : hasDelta records t n = true ↔
    ∃ m ∈ t.ids, isRecorded records m = true ∧ (n = m ∨ t.Above n m) := by
  rw [hasDelta, Option.any_eq_true]
  constructor
  -- a node is laid out for itself or for one below it
  · rintro ⟨p, hfind, hdelta⟩
    obtain ⟨m, hm, hrecorded⟩ := isSome_delta?.mp hdelta
    obtain ⟨q, hq⟩ := Option.isSome_iff_exists.mp (isSome_find?.mpr hm)
    refine ⟨m, mem_ids_of_find? (find?_trans hids hfind hq), hrecorded, ?_⟩
    rw [ids_eq, List.mem_cons, List.mem_flatMap, id_of_find? hfind] at hm
    rcases hm with rfl | ⟨c, hc, hm⟩
    · exact .inl rfl
    · exact .inr ⟨p, hfind, c, hc, hm⟩
  · rintro ⟨m, hm, hrecorded, rfl | ⟨p, hfind, c, hc, hbelow⟩⟩
    · obtain ⟨p, hfind⟩ := Option.isSome_iff_exists.mp (isSome_find?.mpr hm)
      refine ⟨p, hfind, isSome_delta?.mpr ⟨n, ?_, hrecorded⟩⟩
      rw [← id_of_find? hfind]
      exact p.id_mem_ids
    · refine ⟨p, hfind, isSome_delta?.mpr ⟨m, ?_, hrecorded⟩⟩
      rw [ids_eq]
      exact List.mem_cons_of_mem _ (List.mem_flatMap.mpr ⟨c, hc, hbelow⟩)

/-! ## Places -/

/-- The listed nodes of a delta are found in it. -/
theorem exists_find?_of_mem_ids (h : t.delta? records = some d) (hn : n ∈ d.ids) :
    ∃ e, d.find? n = some e := by
  induction t using children_induct generalizing d with
  | step t ih =>
      obtain rfl := eq_of_delta? h
      rw [NodeDelta.ids, NodeDelta.idsAmong_eq, List.mem_cons, List.mem_flatMap] at hn
      rw [NodeDelta.find?, findAmong?_delta_eq]
      by_cases hid : t.id = n
      · rw [if_pos hid]
        exact ⟨_, rfl⟩
      · obtain ⟨b, hb, hn⟩ := hn.resolve_left (Ne.symm hid)
        obtain ⟨c, hc, hdelta⟩ := List.mem_filterMap.mp hb
        obtain ⟨e, he⟩ := ih c hc hdelta hn
        rw [if_neg hid, ← Option.isSome_iff_exists, List.findSome?_isSome_iff]
        exact ⟨b, hb, by rw [he]; rfl⟩

/-- What is found in the delta of a tree is the delta of what is found in the
    tree. -/
theorem find?_of_delta? (hids : t.ids.Nodup) (h : t.delta? records = some d)
    (he : d.find? n = some e) : ∃ p, t.find? n = some p ∧ p.delta? records = some e := by
  induction t using children_induct generalizing d with
  | step t ih =>
      obtain rfl := eq_of_delta? h
      rw [NodeDelta.find?, findAmong?_delta_eq] at he
      split at he
      · rename_i hid
        cases he
        exact ⟨t, hid ▸ t.find?_id, h⟩
      · obtain ⟨b, hb, he⟩ := List.exists_of_findSome?_eq_some he
        obtain ⟨c, hc, hdelta⟩ := List.mem_filterMap.mp hb
        obtain ⟨p, hfind, hp⟩ := ih c hc (nodup_ids_child hids hc) hdelta he
        exact ⟨p, find?_of_child hids hc hfind, hp⟩

/-- The nodes of the deltas of siblings are those siblings that have one. -/
theorem map_node_deltas (records : List Record) (ts : List ProofTree) :
    (ts.filterMap (delta? records)).map NodeDelta.node =
      (ts.filter fun c => (c.delta? records).isSome).map ProofTree.id := by
  induction ts with
  | nil => rfl
  | cons c rest ih =>
      rw [List.filterMap_cons, List.filter_cons]
      cases hdelta : c.delta? records with
      | none => exact ih
      | some e =>
          show e.node :: (rest.filterMap (delta? records)).map NodeDelta.node = c.id :: _
          rw [ih, eq_of_delta? hdelta]
          rfl

/-- The children of a node of a delta are the children in the tree that are
    in the delta too, in their order. -/
theorem children_of_delta? (hids : t.ids.Nodup) (h : t.delta? records = some d)
    (hfind : t.find? n = some p) (hp : p.delta? records = some e) :
    e.children.map NodeDelta.node = (p.children.map ProofTree.id).filter (· ∈ d.ids) := by
  have hchildren : e.children = p.children.filterMap (delta? records) := by
    rw [eq_of_delta? hp]
    rfl
  rw [hchildren, map_node_deltas, List.filter_map]
  refine congrArg (List.map ProofTree.id) (List.filter_congr ?_)
  intro c hc
  have hfound : t.find? c.id = some c :=
    find?_trans hids hfind (find?_child (nodup_ids_find? hids hfind) hc)
  have hkeep : hasDelta records t c.id = (c.delta? records).isSome := by
    rw [hasDelta, hfound, Option.any_some]
  rw [← hkeep, Function.comp_apply, Bool.eq_iff_iff, decide_eq_true_eq,
    ids_of_delta? (everywhere_hasDelta hids) h, List.mem_filter]
  exact ⟨fun hc => ⟨mem_ids_of_find? hfound, hc⟩, And.right⟩

/-- The changed nodes of a delta are its nodes with flags. -/
theorem changed_of_delta? (h : t.delta? records = some d) :
    d.changed = d.ids.filter fun n => !(recordedFlags records n).isEmpty := by
  induction t using children_induct generalizing d with
  | step t ih =>
      obtain rfl := eq_of_delta? h
      rw [NodeDelta.changed, NodeDelta.ids, NodeDelta.changedAmong_eq, NodeDelta.idsAmong_eq,
        List.filter_cons, List.filter_flatMap]
      have hbelow : (t.children.filterMap (delta? records)).flatMap NodeDelta.changed =
          (t.children.filterMap (delta? records)).flatMap fun b =>
            b.ids.filter fun n => !(recordedFlags records n).isEmpty := by
        refine List.flatMap_congr ?_
        intro b hb
        obtain ⟨c, hc, hdelta⟩ := List.mem_filterMap.mp hb
        exact ih c hc hdelta
      rw [hbelow]
      cases (recordedFlags records t.id).isEmpty <;> rfl

/-- They are the nodes of the tree with flags: a node with flags is recorded,
    so it is in the delta. -/
theorem changed_eq_filter (hids : t.ids.Nodup) (h : t.delta? records = some d) :
    d.changed = t.ids.filter fun n => !(recordedFlags records n).isEmpty := by
  rw [changed_of_delta? h, ids_of_delta? (everywhere_hasDelta hids) h, List.filter_filter]
  refine List.filter_congr ?_
  intro n hn
  cases hempty : (recordedFlags records n).isEmpty with
  | true => rfl
  | false =>
      rw [Bool.not_false, Bool.true_and, hasDelta_iff hids]
      refine ⟨n, hn, ?_, .inl rfl⟩
      by_contra hnot
      rw [recordedFlags_of_not_recorded (Bool.eq_false_iff.mpr hnot)] at hempty
      cases hempty

end ProofTree

/-! ## Exact deltas -/

open ProofTree (Record isRecorded recordedFlags)

/-- The delta says exactly what is recorded about the nodes of a proof. -/
structure TreeDelta.Exact (delta : TreeDelta) (proof : ProofTree) (records : List Record) :
    Prop where
  root : delta.root.node = proof.id
  /-- The recorded nodes that are in the tree, and the nodes above them. -/
  nodes : ∀ n, n ∈ delta.root.ids ↔
    ∃ m ∈ proof.ids, isRecorded records m = true ∧ (n = m ∨ proof.Above n m)
  once : delta.root.ids.Nodup
  order : delta.root.ids.Sublist proof.ids
  /-- Every node has the children that it has in the tree, as far as they are
      in the delta. -/
  layout : ∀ n ∈ delta.root.ids, ∃ p e, proof.find? n = some p ∧ delta.find? n = some e ∧
    e.node = n ∧
    e.children.map NodeDelta.node = (p.children.map ProofTree.id).filter (· ∈ delta.root.ids)
  /-- The flags of a node are the least that contain all that is recorded
      for it. -/
  flags : ∀ m ∈ proof.ids, ∀ c : DeltaFlags, c.contains (delta.flagsOf m) = true ↔
    ∀ flags, (m, flags) ∈ records → c.contains flags = true
  /-- What left the tree has no flags. -/
  gone : ∀ m, m ∉ proof.ids → delta.flagsOf m = .none
  changed : delta.changed = proof.ids.filter fun n => !(delta.flagsOf n).isEmpty

namespace Tree

variable {t : Tree} {delta : TreeDelta}

/-- A delta of a tree is exact. -/
theorem exact_delta? (hids : t.proof.ids.Nodup) (h : t.delta? = some delta) :
    delta.Exact t.proof t.records := by
  obtain ⟨d, hd, rfl⟩ := Option.map_eq_some_iff.mp h
  have hlist := ProofTree.ids_of_delta? (ProofTree.everywhere_hasDelta hids) hd
  -- in the layout or not, a node of the tree has the flags of its records
  have hflags : ∀ m ∈ t.proof.ids, TreeDelta.flagsOf ⟨t.id, d⟩ m = recordedFlags t.records m := by
    intro m hm
    exact flagsOf_delta? h hm
  refine ⟨?_, ?_, ?_, ?_, ?_, ?_, ?_, ?_⟩
  · show d.node = t.proof.id
    rw [ProofTree.eq_of_delta? hd]
    rfl
  · intro n
    show n ∈ d.ids ↔ _
    rw [hlist, List.mem_filter, ← ProofTree.hasDelta_iff hids]
    refine ⟨And.right, fun hn => ⟨?_, hn⟩⟩
    obtain ⟨p, hfind, -⟩ := (Option.any_eq_true _ _).mp hn
    exact ProofTree.mem_ids_of_find? hfind
  · show d.ids.Nodup
    rw [hlist]
    exact hids.filter _
  · show d.ids.Sublist t.proof.ids
    rw [hlist]
    exact List.filter_sublist
  · intro n hn
    obtain ⟨e, he⟩ := ProofTree.exists_find?_of_mem_ids hd hn
    obtain ⟨p, hfind, hp⟩ := ProofTree.find?_of_delta? hids hd he
    refine ⟨p, e, hfind, he, ?_, ProofTree.children_of_delta? hids hd hfind hp⟩
    rw [ProofTree.eq_of_delta? hp]
    exact ProofTree.id_of_find? hfind
  · intro m hm c
    rw [hflags m hm]
    exact ProofTree.contains_recordedFlags_iff
  -- a node that is not of the tree is not in the delta either
  · intro m hm
    rw [TreeDelta.flagsOf]
    split
    · rename_i e he
      obtain ⟨p, hfind, -⟩ := ProofTree.find?_of_delta? hids hd he
      exact absurd (ProofTree.mem_ids_of_find? hfind) hm
    · rfl
  · show d.changed = _
    rw [ProofTree.changed_eq_filter hids hd]
    refine List.filter_congr ?_
    intro n hn
    rw [hflags n hn]

end Tree

end SequentProver
