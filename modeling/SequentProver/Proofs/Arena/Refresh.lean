import SequentProver.Proofs.Arena.Layout
import SequentProver.Proofs.TreeEdit

/-! # Levels refreshed in an arena

    After a change of one node the levels are recomputed by climbing the
    stored parents, as far as they move.  In an arena that stores the tree
    this is the edit of the tree: the same levels move, and the same nodes
    are noted in the books.

    Route:
    1. notes in the books of a tree;
    2. one node: `recompute` settles it;
    3. the climb, along the way from the changed node to the root;
    4. `refresh`, the whole of it. -/

namespace SequentProver.Arena

variable {store : NodeId → Option NodeData} {tree : TreeId} {parent : Option NodeId}
  {t p : ProofTree} {n : NodeId} {a : Arena}

/-! ## Notes -/

/-- The entries, with more records in the books of one tree. -/
def noted (tree : TreeId) (records : List ProofTree.Record) (entries : List TreeEntry) :
    List TreeEntry :=
  entries.map fun t => if t.id = tree then { t with records := t.records ++ records } else t

theorem noted_nil (tree : TreeId) (entries : List TreeEntry) : noted tree [] entries = entries := by
  rw [noted]
  refine (List.map_congr_left fun t _ => ?_).trans (List.map_id' entries)
  rw [List.append_nil]
  exact ite_self _

/-- Records are noted one list after the other. -/
theorem noted_noted (tree : TreeId) (records records' : List ProofTree.Record)
    (entries : List TreeEntry) :
    noted tree records' (noted tree records entries) = noted tree (records ++ records') entries := by
  rw [noted, noted, noted, List.map_map]
  refine List.map_congr_left fun t _ => ?_
  by_cases hid : t.id = tree
  · simp only [Function.comp_apply, if_pos hid, List.append_assoc]
  · simp only [Function.comp_apply, if_neg hid]

/-- The books of other trees stay as they are. -/
theorem noted_of_ne {tree : TreeId} {entries : List TreeEntry} (h : ∀ t ∈ entries, t.id ≠ tree)
    (records : List ProofTree.Record) : noted tree records entries = entries :=
  (List.map_congr_left fun t ht => if_neg (h t ht)).trans (List.map_id' entries)

/-- Notes in the books of two trees do not meet. -/
theorem noted_comm {tree tree' : TreeId} (hne : tree ≠ tree')
    (records records' : List ProofTree.Record) (entries : List TreeEntry) :
    noted tree records (noted tree' records' entries) =
      noted tree' records' (noted tree records entries) := by
  rw [noted, noted, noted, noted, List.map_map, List.map_map]
  refine List.map_congr_left fun t _ => ?_
  by_cases hid : t.id = tree
  · have hid' : t.id ≠ tree' := fun heq => hne (hid.symm.trans heq)
    simp only [Function.comp_apply, if_pos hid, if_neg hid']
  · simp only [Function.comp_apply, if_neg hid]
    split <;> rfl

/-- Noting one change appends it to the books of the tree. -/
theorem record_ok (tree : TreeId) (n : NodeId) (flags : DeltaFlags) (a : Arena) :
    record tree n flags a = some (.ok (), { a with trees := noted tree [(n, flags)] a.trees }) :=
  rfl

/-! ## One node -/

/-- The level by what is stored is the level of the subtree. -/
theorem levelOf_stored (h : Stores a.data? tree parent t) :
    a.levelOf (t.stored tree parent) = t.level := by
  cases t with
  | openNode node => rfl
  | applied node rule skipped children =>
      have hchildren : (children.map ProofTree.id).filterMap a.data? =
          children.map fun c => c.stored tree (some node.id) := by
        rw [List.filterMap_map, ← List.filterMap_eq_map]
        exact List.filterMap_congr fun c hc => (h.child c hc).top
      show (((children.map ProofTree.id).filterMap a.data?).map NodeData.confidence).foldl _ _ = _
      rw [hchildren, List.map_map, ProofTree.level_applied]
      rfl

/-- Recomputing the level of a stored node settles it. -/
theorem recompute_ok (h : Stores a.data? tree parent t)
    (hid : t.id ∉ t.children.flatMap ProofTree.ids) :
    ∃ b, recompute t.id a = some (.ok t.settle.moved, b) ∧ a.Rewrites b ∧ b.trees = a.trees ∧
      Stores b.data? tree parent t.settle.result ∧ ∀ m, m ≠ t.id → b.data? m = a.data? m := by
  have hrun : recompute t.id a = (if t.level = t.confidence then (return false) else do
      write t.id fun d => { d with confidence := t.level }
      return true : Work Bool) a := by
    rw [recompute, Work.ask_bind, h.top]
    show (Work.ask _ >>= _) a = _
    rw [Work.ask_bind, levelOf_stored h]
    rfl
  rw [hrun, ProofTree.settle]
  -- nothing is written where the level is right already
  by_cases hlevel : t.level = t.confidence
  · rw [if_pos hlevel, if_pos hlevel]
    exact ⟨a, rfl, .refl a, rfl, h, fun _ _ => rfl⟩
  · rw [if_neg hlevel, if_neg hlevel, Work.bind_ok (write_ok h.top _)]
    refine ⟨_, rfl, .put h.top _, rfl, ?_, fun m hm => ?_⟩
    · show Stores _ tree parent t.settled
      have hstored : { t.stored tree parent with confidence := t.level } =
          t.settled.stored tree parent := by
        cases t <;> rfl
      rw [data?_put h.top, hstored, ← ProofTree.id_settled]
      refine .of_update ?_ ?_
      · rw [ProofTree.children_settled, ProofTree.id_settled]
        exact h.child
      · rw [ProofTree.children_settled, ProofTree.id_settled]
        exact hid
    · rw [data?_put_of_ne h.top _ hm]

/-! ## The climb -/

/-- In place of the subtree `p` of `t` the arena stores `q`; the rest of `t`
    is as in the store. -/
structure Replaced (store : NodeId → Option NodeData) (a : Arena) (tree : TreeId)
    (t p q : ProofTree) : Prop where
  kept : ∀ m ∈ t.ids, m ∉ p.ids → a.data? m = store m
  stored : ∀ above, Stores store tree above p → Stores a.data? tree above q
  id : q.id = p.id
  top : q.id ∉ q.children.flatMap ProofTree.ids
  fresh : ∀ m ∈ q.ids, m ∈ t.ids → m ∈ p.ids

namespace Replaced

/-- Only the rest of `t` and the new subtree matter. -/
theorem congr {b : Arena} {q : ProofTree} (h : Replaced store a tree t p q)
    (hrest : ∀ m ∈ t.ids, m ∉ p.ids → b.data? m = a.data? m)
    (hnew : ∀ m ∈ q.ids, b.data? m = a.data? m) : Replaced store b tree t p q where
  kept m hm hnot := (hrest m hm hnot).trans (h.kept m hm hnot)
  stored above habove := (h.stored above habove).congr hnew
  id := h.id
  top := h.top
  fresh := h.fresh

/-- Writing the node at the top over children that are stored. -/
theorem put {q : ProofTree} {d : NodeData} (hstored : Stores store tree parent p)
    (hrest : ∀ m ∈ t.ids, m ∉ p.ids → a.data? m = store m) (htop : a.data? p.id = some d)
    (hid : q.id = p.id) (hbelow : ∀ c ∈ q.children, Stores a.data? tree (some p.id) c)
    (hids : p.id ∉ q.children.flatMap ProofTree.ids)
    (hfresh : ∀ m ∈ q.children.flatMap ProofTree.ids, m ∈ t.ids → m ∈ p.ids) :
    Replaced store (a.put p.id (q.stored tree parent)) tree t p q where
  kept m hm hnot := by
    have hne : m ≠ p.id := fun heq => hnot (heq ▸ p.id_mem_ids)
    rw [data?_put_of_ne htop _ hne, hrest m hm hnot]
  stored above habove := by
    -- the store has one parent for the node
    have hsame := Option.some.inj (habove.top.symm.trans hstored.top)
    obtain rfl : above = parent := congrArg NodeData.parent hsame
    rw [data?_put htop, ← hid]
    exact .of_update (hid ▸ hbelow) (hid ▸ hids)
  id := hid
  top := hid ▸ hids
  fresh m hm hmem := by
    rw [ProofTree.ids_eq, List.mem_cons, hid] at hm
    rcases hm with rfl | hm
    · exact p.id_mem_ids
    · exact hfresh m hm hmem

end Replaced

/-- What a climb from the top of `p` to the top of `t` leaves behind.  Below
    the node where it starts, and outside of `t`, it changes nothing. -/
structure Climbed (a b : Arena) (tree : TreeId) (parent : Option NodeId) (t p q : ProofTree)
    (e : ProofTree.Edited ProofTree) : Prop where
  rewrites : a.Rewrites b
  trees : b.trees = noted tree (e.risen.map fun id => (id, .confidence)) a.trees
  stored : Stores b.data? tree parent e.result
  id : e.result.id = t.id
  ids : ∀ m ∈ e.result.ids, m ∈ t.ids ∨ m ∈ q.ids
  kept : ∀ m, (m ∈ t.ids → m ∈ p.ids ∧ m ≠ p.id) → b.data? m = a.data? m

/-- A node that is settled on its own brings up nothing above it. -/
theorem risen_settle (t : ProofTree) : t.settle.risen = [] := by
  rw [ProofTree.settle]
  split <;> rfl

/-- The climb starts at the node that was changed. -/
theorem climb_here {q : ProofTree} (hstored : Stores a.data? tree parent q)
    (htop : q.id ∉ q.children.flatMap ProofTree.ids) (hid : q.id = t.id) :
    ∃ b, Climbed a b tree parent t t q q.settle ∧ ∀ turns, settleFrom turns q.id a =
      if q.settle.moved then climb turns t.id b else some (.ok (), b) := by
  obtain ⟨b, hrun, hrewrites, htrees, hsettled, hkept⟩ := recompute_ok hstored htop
  have hids : q.settle.result.ids = q.ids := by rw [ProofTree.settle_result, ProofTree.ids_settled]
  refine ⟨b, ⟨hrewrites, ?_, hsettled, ?_, fun m hm => .inr (hids ▸ hm), fun m hm => ?_⟩,
    fun turns => ?_⟩
  · rw [risen_settle, List.map_nil, noted_nil, htrees]
  · rw [ProofTree.settle_result, ProofTree.id_settled, hid]
  · refine hkept m ?_
    rintro rfl
    exact (hm (hid ▸ t.id_mem_ids)).2 hid
  · rw [settleFrom, Work.bind_ok hrun, hid]
    cases q.settle.moved <;> rfl

/-- One step of the climb: from a child whose level moved to its parent. -/
theorem climb_step {c u : ProofTree} (hu : Stores a.data? tree parent u)
    (htop : u.id ∉ u.children.flatMap ProofTree.ids) (hc : c ∈ u.children) :
    ∃ b, a.Rewrites b ∧
      b.trees = noted tree (if u.settle.moved then [(u.id, .confidence)] else []) a.trees ∧
      Stores b.data? tree parent u.settle.result ∧ (∀ m, m ≠ u.id → b.data? m = a.data? m) ∧
      ∀ turns, climb (turns + 1) c.id a =
        if u.settle.moved then climb turns u.id b else some (.ok (), b) := by
  obtain ⟨b, hrun, hrewrites, htrees, hsettled, hkept⟩ := recompute_ok hu htop
  have habove : a.above? c.id = some (u.id, tree) := by
    rw [above?, (hu.child c hc).top]
    rfl
  have hclimb : ∀ turns, climb (turns + 1) c.id a = (do
      if ← recompute u.id then
        record tree u.id .confidence
        climb turns u.id
      else return () : Work Unit) a := by
    intro turns
    rw [climb, Work.ask_bind, habove]
  -- the climb ends at the first level that does not move
  cases hmoved : u.settle.moved with
  | false =>
      rw [hmoved] at hrun
      refine ⟨b, hrewrites, ?_, hsettled, hkept, fun turns => ?_⟩
      · rw [if_neg Bool.false_ne_true, noted_nil, htrees]
      · rw [hclimb, Work.bind_ok hrun]
        rfl
  | true =>
      rw [hmoved] at hrun
      refine ⟨{ b with trees := noted tree [(u.id, .confidence)] b.trees },
        hrewrites.trans (.entries b _), ?_, hsettled, hkept, fun turns => ?_⟩
      · rw [if_pos rfl, htrees]
      · rw [hclimb, Work.bind_ok hrun]
        exact Work.bind_ok (record_ok tree u.id .confidence b)

/-- What is replaced in a tree is replaced in the child that has it. -/
theorem Replaced.child {q c : ProofTree} (h : Replaced store a tree t p q)
    (hc : c ∈ t.children) : Replaced store a tree c p q :=
  ⟨fun m hm => h.kept m (mem_ids_of_child hc hm), h.stored, h.id, h.top,
    fun m hm hmem => h.fresh m hm (mem_ids_of_child hc hmem)⟩

section Around

variable {node : Node} {rule : Rule} {skipped : SkippedActions} {before after : List ProofTree}
  {c : ProofTree}

/-- One of the children, or one of those around it. -/
theorem mem_around {d : ProofTree} : d ∈ before ++ c :: after ↔ d = c ∨ d ∈ before ++ after := by
  rw [List.perm_middle.mem_iff, List.mem_cons]

/-- The children around one share no handle with it. -/
theorem apart_around {d : ProofTree} {m : NodeId}
    (hids : (ProofTree.applied node rule skipped (before ++ c :: after)).ids.Nodup)
    (hd : d ∈ before ++ after) (hm : m ∈ d.ids) : m ∉ c.ids := by
  rw [ProofTree.ids_eq, List.nodup_cons] at hids
  have hbelow := (List.perm_middle.flatMap_right ProofTree.ids).nodup_iff.mp hids.2
  rw [List.flatMap_cons, List.nodup_append] at hbelow
  exact fun hmem => hbelow.2.2 m hmem m (List.mem_flatMap.mpr ⟨d, hd, hm⟩) rfl

/-- With another subtree in the place of one child, the handles outside of it
    are those from before. -/
theorem mem_ids_around {q : ProofTree} {m : NodeId}
    (hm : m ∈ (ProofTree.applied node rule skipped (before ++ q :: after)).ids) :
    m ∈ q.ids ∨ m ∈ (ProofTree.applied node rule skipped (before ++ c :: after)).ids := by
  rw [ProofTree.ids_eq, List.mem_cons, List.mem_flatMap] at hm
  rcases hm with rfl | ⟨d, hd, hmem⟩
  · exact .inr (ProofTree.id_mem_ids (.applied node rule skipped (before ++ c :: after)))
  · rcases mem_around.mp hd with rfl | hd
    · exact .inl hmem
    · exact .inr (mem_ids_of_child (t := .applied node rule skipped (before ++ c :: after))
        (mem_around.mpr (.inr hd)) hmem)

variable {q : ProofTree} {e : ProofTree.Edited ProofTree} {b : Arena}
  (hids : (ProofTree.applied node rule skipped (before ++ c :: after)).ids.Nodup)
  (hfind : c.find? n = some p)
  (hold : Stores store tree parent (.applied node rule skipped (before ++ c :: after)))
  (hreplaced : Replaced store a tree (.applied node rule skipped (before ++ c :: after)) p q)
  (hclimbed : Climbed a b tree (some node.id) c p q e)

include hids hfind

/-- The node above is outside of the changed subtree. -/
theorem above_not_mem : node.id ∉ p.ids := by
  intro hmem
  have hc : c ∈ before ++ c :: after := mem_around.mpr (.inl rfl)
  exact id_not_below hids (List.mem_flatMap.mpr
    ⟨c, hc, mem_ids_of_mem_find? (ProofTree.nodup_ids_child hids hc) hfind hmem⟩)

include hreplaced hclimbed

/-- Its handle is not below it after the climb either. -/
theorem above_not_below : node.id ∉ (before ++ e.result :: after).flatMap ProofTree.ids := by
  intro hmem
  have hnot := id_not_below hids
  obtain ⟨d, hd, hm⟩ := List.mem_flatMap.mp hmem
  rcases mem_around.mp hd with rfl | hd
  · rcases hclimbed.ids _ hm with hm | hm
    · exact hnot (List.mem_flatMap.mpr ⟨c, mem_around.mpr (.inl rfl), hm⟩)
    · exact above_not_mem hids hfind (hreplaced.fresh _ hm (ProofTree.id_mem_ids _))
  · exact hnot (List.mem_flatMap.mpr ⟨d, mem_around.mpr (.inr hd), hm⟩)

include hold

/-- A climb up to a child leaves the tree stored around it. -/
theorem stored_around :
    Stores b.data? tree parent (.applied node rule skipped (before ++ e.result :: after)) := by
  have hc : c ∈ before ++ c :: after := mem_around.mpr (.inl rfl)
  -- outside of the child, the climb and the change leave everything alone
  have hkept : ∀ m ∈ (ProofTree.applied node rule skipped (before ++ c :: after)).ids,
      m ∉ c.ids → b.data? m = store m := by
    intro m hm hnot
    rw [hclimbed.kept m fun hmem => absurd hmem hnot]
    exact hreplaced.kept m hm fun hmem =>
      hnot (mem_ids_of_mem_find? (ProofTree.nodup_ids_child hids hc) hfind hmem)
  refine .mk ?_ fun d hd => ?_
  · have hid : (before ++ e.result :: after).map ProofTree.id =
        (before ++ c :: after).map ProofTree.id := by
      rw [List.map_append, List.map_append, List.map_cons, List.map_cons, hclimbed.id]
    rw [ProofTree.stored_congr hid]
    refine (hkept _ (ProofTree.id_mem_ids _) fun hmem => ?_).trans hold.top
    exact id_not_below hids (List.mem_flatMap.mpr ⟨c, hc, hmem⟩)
  · rcases mem_around.mp hd with rfl | hd
    · exact hclimbed.stored
    · have hd' : d ∈ before ++ c :: after := mem_around.mpr (.inr hd)
      exact (hold.child d hd').congr fun m hm =>
        hkept m (mem_ids_of_child hd' hm) (apart_around hids hd hm)

/-- The climb goes on to the node above, if the level of the child moved. -/
theorem climb_above {used : Nat}
    (hrun : ∀ turns, settleFrom (turns + used) n a =
      if e.moved then climb turns c.id b else some (.ok (), b)) :
    let above := ProofTree.settleAbove node rule skipped
      ⟨before ++ e.result :: after, e.moved, e.risen⟩
    ∃ b', Climbed a b' tree parent (.applied node rule skipped (before ++ c :: after)) p q above ∧
      ∃ used', used' ≤ used + 1 ∧ ∀ turns, settleFrom (turns + used') n a =
        if above.moved then climb turns node.id b' else some (.ok (), b') := by
  have hstored := stored_around hids hfind hold hreplaced hclimbed
  let t := ProofTree.applied node rule skipped (before ++ c :: after)
  let u := ProofTree.applied node rule skipped (before ++ e.result :: after)
  have hc : c ∈ t.children := mem_around.mpr (.inl rfl)
  have hu : ∀ m ∈ u.ids, m ∈ t.ids ∨ m ∈ q.ids := fun m hm =>
    (mem_ids_around hm).elim (fun hmem => (hclimbed.ids m hmem).imp_left (mem_ids_of_child hc)) .inl
  have hkept : ∀ m, (m ∈ t.ids → m ∈ p.ids ∧ m ≠ p.id) → b.data? m = a.data? m := fun m hm =>
    hclimbed.kept m fun hmem => hm (mem_ids_of_child hc hmem)
  -- a child that did not move leaves the nodes above it alone
  cases hmoved : e.moved with
  | false =>
      refine ⟨b, ⟨hclimbed.rewrites, hclimbed.trees, hstored, rfl, hu, hkept⟩, used,
        Nat.le_succ used, fun turns => ?_⟩
      rw [hrun, hmoved]
      rfl
  | true =>
      obtain ⟨b', hrewrites, htrees, hsettled, hkept', hclimb⟩ := climb_step (c := e.result) hstored
        (above_not_below hids hfind hreplaced hclimbed) (mem_around.mpr (.inl rfl))
      refine ⟨b', ⟨hclimbed.rewrites.trans hrewrites, ?_, hsettled, ?_, fun m hm => hu m ?_,
        fun m hm => ?_⟩, used + 1, Nat.le_refl _, fun turns => ?_⟩
      · rw [htrees, hclimbed.trees, noted_noted]
        show _ = noted tree ((if u.settle.moved then e.risen ++ [node.id] else e.risen).map _) _
        cases u.settle.moved with
        | false => rw [if_neg Bool.false_ne_true, if_neg Bool.false_ne_true, List.append_nil]
        | true => rw [if_pos rfl, if_pos rfl, List.map_append, List.map_singleton]; rfl
      · show u.settle.result.id = node.id
        rw [ProofTree.settle_result, ProofTree.id_settled]
        rfl
      · have hids' : u.settle.result.ids = u.ids := by
          rw [ProofTree.settle_result, ProofTree.ids_settled]
        exact hids' ▸ hm
      -- the node above is outside of what was changed
      · have hne : m ≠ u.id := by
          rintro rfl
          exact above_not_mem hids hfind (hm t.id_mem_ids).1
        rw [hkept' m hne, hkept m hm]
      · rw [Nat.add_comm used 1, ← Nat.add_assoc, hrun, hmoved, if_pos rfl, ← hclimbed.id, hclimb]
        rfl

end Around

/-- Refreshing climbs from the changed node to the top, where the levels
    below are those of the edited tree.  It takes fewer turns than there are
    nodes. -/
theorem climb_edit {change : ProofTree → ProofTree} (hids : t.ids.Nodup)
    (hfind : t.find? n = some p) (hold : Stores store tree parent t)
    (hreplaced : Replaced store a tree t p (change p)) :
    ∃ e b used, t.edit n change = some e ∧ Climbed a b tree parent t p (change p) e ∧
      used < t.ids.length ∧ ∀ turns, settleFrom (turns + used) n a =
        if e.moved then climb turns t.id b else some (.ok (), b) := by
  -- upwards from the node, one child after the other
  induction t using ProofTree.children_induct generalizing parent with
  | step t ih =>
      by_cases hid : t.id = n
      · rw [ProofTree.find?_eq, if_pos hid] at hfind
        obtain rfl : t = p := Option.some.inj hfind
        have hq : (change t).id = n := hreplaced.id.trans hid
        obtain ⟨b, hclimbed, hrun⟩ :=
          climb_here (hreplaced.stored parent hold) hreplaced.top hreplaced.id
        refine ⟨_, b, 0, ProofTree.edit_of_id hid, hclimbed, ?_, fun turns => ?_⟩
        · rw [ProofTree.ids_eq]
          exact Nat.succ_pos _
        · rw [← hq]
          exact hrun turns
      · cases t with
        | openNode node =>
            rw [ProofTree.find?_eq, if_neg hid] at hfind
            exact nomatch hfind
        | applied node rule skipped children =>
            rw [ProofTree.find?_eq, if_neg hid] at hfind
            obtain ⟨before, c, after, hsplit, hfound, hbefore⟩ :=
              List.findSome?_eq_some_iff.mp hfind
            have hchildren : children = before ++ c :: after := hsplit
            subst hchildren
            have hc : c ∈ before ++ c :: after := List.mem_append_right _ List.mem_cons_self
            have hnot : n ∉ before.flatMap ProofTree.ids := by
              intro hmem
              obtain ⟨d, hd, hn⟩ := List.mem_flatMap.mp hmem
              exact ProofTree.find?_eq_none.mp (hbefore d hd) hn
            obtain ⟨e, b, used, hedit, hclimbed, hused, hrun⟩ := ih c hc
              (ProofTree.nodup_ids_child hids hc) hfound (hold.child c hc) (hreplaced.child hc)
            obtain ⟨b', hclimbed', used', hused', hrun'⟩ :=
              climb_above hids hfound hold hreplaced hclimbed hrun
            refine ⟨_, b', used', ?_, hclimbed', ?_, hrun'⟩
            · have hne : node.id ≠ n := hid
              rw [ProofTree.edit, if_neg hne, ProofTree.editAmong_append after hnot hedit]
              rfl
            · have hlt := length_ids_child (t := .applied node rule skipped (before ++ c :: after)) hc
              omega

/-! ## The whole of it -/

/-- **Refreshing is editing**: where an arena stores a tree but for one changed
    subtree, refreshing leaves the edited tree stored, with the levels that
    moved in the books. -/
theorem refresh_ok (change : ProofTree → ProofTree) (hids : t.ids.Nodup)
    (hfind : t.find? n = some p) (hold : Stores store tree none t)
    (hreplaced : Replaced store a tree t p (change p)) (hroom : t.ids.length ≤ a.nodes.length) :
    ∃ e b, t.edit n change = some e ∧ refresh n a = some (.ok (), b) ∧
      Climbed a b tree none t p (change p) e := by
  obtain ⟨e, b, used, hedit, hclimbed, hused, hrun⟩ := climb_edit hids hfind hold hreplaced
  refine ⟨e, b, hedit, ?_, hclimbed⟩
  obtain ⟨turns, hturns⟩ := Nat.exists_eq_add_of_le' (Nat.le_trans (Nat.le_of_lt hused) hroom)
  rw [refresh, Work.ask_bind, hturns, hrun turns]
  -- above the root there is nothing
  have habove : b.above? t.id = none := by
    rw [above?, ← hclimbed.id, hclimbed.stored.top]
    rfl
  cases e.moved with
  | false => rfl
  | true =>
      rw [if_pos rfl, climb, Work.ask_bind, habove]
      rfl

end SequentProver.Arena
