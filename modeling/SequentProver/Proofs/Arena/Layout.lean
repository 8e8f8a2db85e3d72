import SequentProver.Proofs.Arena.Storage

/-! # Subtrees laid out in an arena

    `Stores store tree parent t` says that the subtree `t` is laid out in the
    store: every one of its nodes is stored with the right tree, the right
    parent and the right children.  The walks over stored handles are the
    recursions over the subtree.

    Route:
    1. the relation, and what keeps it: stores that agree on the handles of
       a subtree store it alike;
    2. walks down with a stack: moving a subtree into a tree, discarding it;
    3. `Gains`, new subtrees under new handles;
    4. copying a subtree. -/

namespace SequentProver

/-- What is stored for the node at the top, in a tree and below a parent. -/
def ProofTree.stored (t : ProofTree) (tree : TreeId) (parent : Option NodeId) : Arena.NodeData :=
  ⟨tree, parent, t.sequent, t.comment, t.rule?, t.skipped, t.children.map ProofTree.id,
    t.confidence⟩

/-- Of the children only the handles are stored. -/
theorem ProofTree.stored_congr {node : Node} {rule : Rule} {skipped : SkippedActions}
    {children children' : List ProofTree} (h : children.map id = children'.map id) (tree : TreeId)
    (parent : Option NodeId) : (ProofTree.applied node rule skipped children).stored tree parent =
      (ProofTree.applied node rule skipped children').stored tree parent := by
  show Arena.NodeData.mk tree parent node.sequent node.comment (some rule) skipped (children.map id)
    node.confidence = .mk _ _ _ _ _ _ (children'.map id) _
  rw [h]
  rfl

namespace Arena

variable {store store' : NodeId → Option NodeData} {tree tree' : TreeId}
  {parent parent' : Option NodeId} {t p : ProofTree} {n : NodeId} {a : Arena}

/-! ## Stored subtrees -/

/-- The handles of a child are handles of the subtree. -/
theorem mem_ids_of_child {c : ProofTree} (hc : c ∈ t.children) (hn : n ∈ c.ids) : n ∈ t.ids := by
  rw [ProofTree.ids_eq]
  exact List.mem_cons_of_mem _ (List.mem_flatMap.mpr ⟨c, hc, hn⟩)

/-- The handles of a subtree that is found are handles of the tree. -/
theorem mem_ids_of_mem_find? {m : NodeId} (hids : t.ids.Nodup) (hfind : t.find? n = some p)
    (hm : m ∈ p.ids) : m ∈ t.ids := by
  obtain ⟨q, hq⟩ := Option.isSome_iff_exists.mp (ProofTree.isSome_find?.mpr hm)
  exact ProofTree.mem_ids_of_find? (ProofTree.find?_trans hids hfind hq)

/-- A node is not below itself. -/
theorem id_not_below (hids : t.ids.Nodup) : t.id ∉ t.children.flatMap ProofTree.ids := by
  rw [ProofTree.ids_eq, List.nodup_cons] at hids
  exact hids.1

/-- The subtree is stored in a tree and below a parent. -/
inductive Stores (store : NodeId → Option NodeData) (tree : TreeId) :
    Option NodeId → ProofTree → Prop
  | mk {parent : Option NodeId} {t : ProofTree} (top : store t.id = some (t.stored tree parent))
      (below : ∀ c ∈ t.children, Stores store tree (some t.id) c) : Stores store tree parent t

namespace Stores

/-- The node at the top is stored with its tree and the parent it is given. -/
theorem top (h : Stores store tree parent t) : store t.id = some (t.stored tree parent) := by
  cases h with
  | mk top _ => exact top

/-- Children are laid out below the top. -/
theorem child (h : Stores store tree parent t) :
    ∀ c ∈ t.children, Stores store tree (some t.id) c := by
  cases h with
  | mk _ below => exact below

/-- Only the handles of a subtree matter. -/
theorem congr (h : Stores store tree parent t) (hsame : ∀ n ∈ t.ids, store' n = store n) :
    Stores store' tree parent t := by
  induction h with
  | @mk parent t top below ih =>
      exact .mk ((hsame _ t.id_mem_ids).trans top) fun c hc =>
        ih c hc fun n hn => hsame n (mem_ids_of_child hc hn)

/-- Every node of the subtree is stored, as a node of the tree. -/
theorem data (h : Stores store tree parent t) (hn : n ∈ t.ids) :
    ∃ d, store n = some d ∧ d.tree = tree := by
  induction h with
  | @mk parent t top below ih =>
      rw [ProofTree.ids_eq, List.mem_cons, List.mem_flatMap] at hn
      rcases hn with rfl | ⟨c, hc, hmem⟩
      · exact ⟨_, top, rfl⟩
      · exact ih c hc hmem

/-- So is what is below a node. -/
theorem find? (h : Stores store tree parent t) (hfind : t.find? n = some p) :
    ∃ above, Stores store tree above p := by
  induction h with
  | @mk parent t top below ih =>
      rw [ProofTree.find?_eq] at hfind
      split at hfind
      · cases hfind
        exact ⟨parent, .mk top below⟩
      · obtain ⟨c, hc, hfound⟩ := List.exists_of_findSome?_eq_some hfind
        exact ih c hc hfound

/-- Writing the node at the top over children that are stored. -/
theorem of_update (hbelow : ∀ c ∈ t.children, Stores store tree (some t.id) c)
    (hid : t.id ∉ t.children.flatMap ProofTree.ids) :
    Stores (Function.update store t.id (some (t.stored tree parent))) tree parent t := by
  refine .mk (Function.update_self ..) fun c hc => (hbelow c hc).congr fun n hn => ?_
  refine Function.update_of_ne ?_ _ _
  rintro rfl
  exact hid (List.mem_flatMap.mpr ⟨c, hc, hn⟩)

/-- All nodes of the subtree in another tree. -/
theorem retree (h : Stores store tree parent t)
    (hsame : ∀ n ∈ t.ids, store' n = (store n).map fun d => { d with tree := tree' }) :
    Stores store' tree' parent t := by
  induction h with
  | @mk parent t top below ih =>
      refine .mk ?_ fun c hc => ih c hc fun n hn => hsame n (mem_ids_of_child hc hn)
      rw [hsame _ t.id_mem_ids, top]
      rfl

end Stores

/-! ## Walks down -/

/-- Popping a node and pushing its children: the handles that are left. -/
theorem stack_perm (t : ProofTree) (rest : List ProofTree) :
    ((t :: rest).flatMap ProofTree.ids).Perm
      (t.id :: (t.children.reverse ++ rest).flatMap ProofTree.ids) := by
  rw [List.flatMap_cons, ProofTree.ids_eq, List.flatMap_append, List.cons_append]
  exact ((t.children.reverse_perm.symm.flatMap_right _).append_right _).cons _

/-- The stack that is left, by handles. -/
theorem stack_ids (t : ProofTree) (rest : List ProofTree) (tree : TreeId)
    (parent : Option NodeId) : (t.stored tree parent).children.reverse ++ rest.map ProofTree.id =
      (t.children.reverse ++ rest).map ProofTree.id := by
  rw [List.map_append, List.map_reverse]
  rfl

/-- What is left on the stack is still stored, whatever becomes of the node
    that was popped. -/
theorem stack_stored {rest : List ProofTree} {x : Option NodeData}
    (hstored : ∀ u ∈ t :: rest, ∃ old parent, Stores store old parent u)
    (hpopped : t.id ∉ (t.children.reverse ++ rest).flatMap ProofTree.ids) :
    ∀ u ∈ t.children.reverse ++ rest, ∃ old parent,
      Stores (Function.update store t.id x) old parent u := by
  intro u hu
  have hfound : ∃ old parent, Stores store old parent u := by
    rcases List.mem_append.mp hu with hchild | hrest
    · obtain ⟨old, parent, ht⟩ := hstored t List.mem_cons_self
      exact ⟨old, some t.id, ht.child u (List.mem_reverse.mp hchild)⟩
    · exact hstored u (List.mem_cons_of_mem _ hrest)
  obtain ⟨old, parent, hstores⟩ := hfound
  refine ⟨old, parent, hstores.congr fun n hn => Function.update_of_ne ?_ _ _⟩
  rintro rfl
  exact hpopped (List.mem_flatMap.mpr ⟨u, hu, hn⟩)

/-- The subtrees on the stack move into a tree. -/
theorem retree_ok (tree : TreeId) {turns : Nat} {ts : List ProofTree}
    (hstored : ∀ t ∈ ts, ∃ old parent, Stores a.data? old parent t)
    (hids : (ts.flatMap ProofTree.ids).Nodup) (hturns : (ts.flatMap ProofTree.ids).length ≤ turns) :
    ∃ b, retree tree turns (ts.map ProofTree.id) a = some (.ok (), b) ∧ a.Rewrites b ∧
      b.trees = a.trees ∧ ∀ n, b.data? n = if n ∈ ts.flatMap ProofTree.ids then
        (a.data? n).map fun d => { d with tree := tree } else a.data? n := by
  induction turns generalizing a ts with
  | zero =>
      cases ts with
      | nil => exact ⟨a, rfl, .refl a, rfl, fun n => (if_neg List.not_mem_nil).symm⟩
      | cons t rest =>
          rw [(stack_perm t rest).length_eq] at hturns
          exact absurd hturns (Nat.not_succ_le_zero _)
  | succ turns ih =>
      cases ts with
      | nil => exact ⟨a, rfl, .refl a, rfl, fun n => (if_neg List.not_mem_nil).symm⟩
      | cons t rest =>
          have hperm := stack_perm t rest
          rw [hperm.nodup_iff, List.nodup_cons] at hids
          rw [hperm.length_eq, List.length_cons] at hturns
          obtain ⟨old, parent, ht⟩ := hstored t List.mem_cons_self
          have hput := data?_put ht.top { t.stored old parent with tree := tree }
          obtain ⟨b, hrun, hrewrites, htrees, hdata⟩ :=
            ih (hput ▸ stack_stored hstored hids.1) hids.2 (Nat.le_of_succ_le_succ hturns)
          refine ⟨b, ?_, (Rewrites.put ht.top _).trans hrewrites, htrees, fun n => ?_⟩
          · rw [List.map_cons, retree, Work.bind_ok (data_ok ht.top),
              Work.bind_ok (write_ok ht.top _), stack_ids]
            exact hrun
          · rw [hdata n, hput]
            by_cases hn : n = t.id
            · -- the node that was popped is not met again
              rw [hn, if_neg hids.1, Function.update_self,
                if_pos (hperm.mem_iff.mpr List.mem_cons_self), ht.top]
              rfl
            · rw [Function.update_of_ne hn]
              refine if_congr ?_ rfl rfl
              rw [hperm.mem_iff, List.mem_cons, or_iff_right hn]

/-- A subtree moves under a parent in a tree. -/
theorem reparent_ok (hstored : Stores a.data? tree parent t) (hids : t.ids.Nodup)
    (hroom : t.ids.length ≤ a.nodes.length) (parent' : Option NodeId) (tree' : TreeId) :
    ∃ b, reparent t.id parent' tree' a = some (.ok (), b) ∧ a.Rewrites b ∧ b.trees = a.trees ∧
      Stores b.data? tree' parent' t ∧ ∀ n, n ∉ t.ids → b.data? n = a.data? n := by
  -- the parent is written first, then the tree along the walk
  have hmoved : Stores (a.put t.id (t.stored tree parent')).data? tree parent' t := by
    rw [data?_put hstored.top]
    exact .of_update hstored.child (id_not_below hids)
  have hlength := (Rewrites.put hstored.top (t.stored tree parent')).length
  have hone : [t].flatMap ProofTree.ids = t.ids := List.flatMap_singleton ..
  have hstack : ∀ u ∈ [t], ∃ old above,
      Stores (a.put t.id (t.stored tree parent')).data? old above u := by
    intro u hu
    rw [List.mem_singleton.mp hu]
    exact ⟨tree, parent', hmoved⟩
  obtain ⟨b, hrun, hrewrites, htrees, hdata⟩ :=
    retree_ok tree' hstack (hone ▸ hids) (hone ▸ hlength ▸ hroom)
  rw [hone] at hdata
  refine ⟨b, ?_, (Rewrites.put hstored.top _).trans hrewrites, htrees, ?_, fun n hn => ?_⟩
  · rw [reparent, Work.bind_ok (write_ok hstored.top _), Work.ask_bind]
    exact hrun
  · exact hmoved.retree fun n hn => by rw [hdata n, if_pos hn]
  · have hne : n ≠ t.id := fun heq => hn (heq ▸ t.id_mem_ids)
    rw [hdata n, if_neg hn, data?_put_of_ne hstored.top _ hne]

/-- The last handle of a list is given back first. -/
theorem releaseAll_concat (s : Slots) (ids : List NodeId) (id : NodeId) :
    s.releaseAll (ids ++ [id]) = (s.release id).releaseAll ids := by
  rw [Slots.releaseAll, List.foldr_append]
  rfl

/-- From the leaves up, the top comes last. -/
theorem idsUpward_eq (t : ProofTree) :
    t.idsUpward = t.children.flatMap ProofTree.idsUpward ++ [t.id] := by
  cases t with
  | openNode node => rfl
  | applied node rule skipped children =>
      rw [ProofTree.idsUpward, ProofTree.idsUpwardAmong_eq]
      rfl

/-- The subtrees on the stack are discarded, the last children first. -/
theorem discard_ok {turns : Nat} {ts : List ProofTree} {ids : List NodeId}
    (hstored : ∀ t ∈ ts, ∃ old parent, Stores a.data? old parent t)
    (hheld : a.Holds (ts.flatMap ProofTree.ids ++ ids))
    (hturns : (ts.flatMap ProofTree.ids).length ≤ turns) :
    ∃ b, discard turns (ts.map ProofTree.id) a = some (.ok (), b) ∧ b.Holds ids ∧
      b.slots = a.slots.releaseAll (ts.reverse.flatMap ProofTree.idsUpward) ∧
      SameBooks a b ∧ ∀ n, n ∉ ts.flatMap ProofTree.ids → b.data? n = a.data? n := by
  -- a turn is spent on each node of the stack, whose children then take its place
  induction turns generalizing a ts with
  | zero =>
      cases ts with
      | nil => exact ⟨a, rfl, hheld, rfl, .refl a, fun _ _ => rfl⟩
      | cons t rest =>
          rw [(stack_perm t rest).length_eq] at hturns
          exact absurd hturns (Nat.not_succ_le_zero _)
  | succ turns ih =>
      cases ts with
      | nil => exact ⟨a, rfl, hheld, rfl, .refl a, fun _ _ => rfl⟩
      | cons t rest =>
          have hperm := stack_perm t rest
          have hheld' := hheld.perm (hperm.append_right ids)
          rw [hperm.length_eq, List.length_cons] at hturns
          -- a handle comes up once, so its slot is not emptied again
          have hpopped : t.id ∉ (t.children.reverse ++ rest).flatMap ProofTree.ids := fun hmem =>
            (List.nodup_cons.mp hheld'.slots.nodup).1 (List.mem_append_left _ hmem)
          obtain ⟨old, parent, ht⟩ := hstored t List.mem_cons_self
          obtain ⟨hdatum, hslots, hdata⟩ := release_eq ht.top
          obtain ⟨b, hrun, hholds, hslots', hbooks, hkept⟩ :=
            ih (a := (a.release t.id).2) (hdata ▸ stack_stored hstored hpopped)
              (hheld'.release ht.top) (Nat.le_of_succ_le_succ hturns)
          refine ⟨b, ?_, hholds, ?_, (SameBooks.release a t.id).trans hbooks, fun n hn => ?_⟩
          · rw [List.map_cons, discard, Work.perform_bind, hdatum]
            show discard turns ((t.stored old parent).children.reverse ++ _) _ = _
            rw [stack_ids]
            exact hrun
          · rw [hslots', hslots, List.reverse_append, List.reverse_reverse, List.flatMap_append,
              List.reverse_cons, List.flatMap_append, List.flatMap_singleton, idsUpward_eq,
              ← List.append_assoc, releaseAll_concat]
          · rw [hperm.mem_iff, List.mem_cons, not_or] at hn
            rw [hkept n hn.2, hdata, Function.update_of_ne hn.1]

/-- Emptying the slots of one subtree. -/
theorem discard_one {turns : Nat} {old : TreeId} {ids : List NodeId}
    (hstored : Stores a.data? old parent t) (hheld : a.Holds (t.ids ++ ids))
    (hturns : t.ids.length ≤ turns) :
    ∃ b, discard turns [t.id] a = some (.ok (), b) ∧ b.Holds ids ∧
      b.slots = a.slots.releaseAll t.idsUpward ∧ SameBooks a b ∧
      ∀ n, n ∉ t.ids → b.data? n = a.data? n := by
  have hone : [t].flatMap ProofTree.ids = t.ids := List.flatMap_singleton ..
  have hstack : ∀ u ∈ [t], ∃ old parent, Stores a.data? old parent u := by
    intro u hu
    rw [List.mem_singleton.mp hu]
    exact ⟨old, parent, hstored⟩
  obtain ⟨b, hrun, hholds, hslots, hbooks, hkept⟩ :=
    discard_ok hstack (hone.symm ▸ hheld) (hone.symm ▸ hturns)
  have hupward : [t].reverse.flatMap ProofTree.idsUpward = t.idsUpward :=
    List.flatMap_singleton ..
  exact ⟨b, hrun, hholds, hupward ▸ hslots, hbooks, hone ▸ hkept⟩

/-! ## New nodes -/

/-- The arena has gained subtrees: they are stored under new handles, and what
    was stored before still is. -/
structure Gains (a b : Arena) (ids : List NodeId) (tree : TreeId) (parent : Option NodeId)
    (new : List ProofTree) : Prop where
  holds : b.Holds (new.flatMap ProofTree.ids ++ ids)
  stored : ∀ c ∈ new, Stores b.data? tree parent c
  kept : ∀ n ∈ ids, b.data? n = a.data? n
  books : SameBooks a b

namespace Gains

variable {b : Arena} {ids : List NodeId}

/-- Without nodes there is nothing to gain. -/
theorem nil (h : a.Holds ids) : Gains a a ids tree parent [] :=
  ⟨h, fun _ hc => (nomatch hc), fun _ _ => rfl, .refl a⟩

/-- One more subtree, and then others. -/
theorem cons {c : Arena} {new : List ProofTree} (h : Gains a b ids tree parent [t])
    (h' : Gains b c ([t].flatMap ProofTree.ids ++ ids) tree parent new) :
    Gains a c ids tree parent (t :: new) where
  holds := by
    refine h'.holds.perm ?_
    rw [List.flatMap_singleton, List.flatMap_cons, ← List.append_assoc]
    exact List.perm_append_comm.append_right ids
  stored := by
    -- the subtree that came first is not touched by the others
    refine List.forall_mem_cons.mpr ⟨?_, h'.stored⟩
    refine (h.stored t List.mem_cons_self).congr fun n hn => ?_
    exact h'.kept n (List.mem_append_left _ (List.flatMap_singleton ProofTree.ids t ▸ hn))
  kept n hn := (h'.kept n (List.mem_append_right _ hn)).trans (h.kept n hn)
  books := h.books.trans h'.books

/-- A new open node. -/
theorem alloc (h : a.Holds ids) (tree : TreeId) (parent : Option NodeId) (sequent : Sequent) :
    (a.alloc (.ofSequent tree parent sequent)).1 = a.slots.alloc.1 ∧
      (a.alloc (.ofSequent tree parent sequent)).2.slots = a.slots.alloc.2 ∧
      Gains a (a.alloc (.ofSequent tree parent sequent)).2 ids tree parent
        [.openNode { id := a.slots.alloc.1, sequent := sequent }] := by
  obtain ⟨hholds, hid, hslots, hdata⟩ := h.alloc (.ofSequent tree parent sequent)
  have hfresh := (List.nodup_cons.mp hholds.slots.nodup).1
  refine ⟨hid, hslots, hid ▸ hholds, ?_, fun n hn => ?_, .alloc a _⟩
  · intro c hc
    rw [List.mem_singleton.mp hc, hdata, hid]
    exact .mk (Function.update_self ..) fun d hd => (nomatch hd)
  · have hne : n ≠ (a.alloc (.ofSequent tree parent sequent)).1 := fun heq => hfresh (heq ▸ hn)
    rw [hdata, Function.update_of_ne hne]

end Gains

/-- Open nodes are stored one after the other. -/
theorem each_alloc {ids : List NodeId} (h : a.Holds ids) (tree : TreeId) (parent : Option NodeId)
    (sequents : List Sequent) :
    ∃ b, Work.each (fun sequent => Work.perform fun a => a.alloc (.ofSequent tree parent sequent))
        sequents a = some (.ok ((a.slots.openNodes sequents).1.map ProofTree.id), b) ∧
      b.slots = (a.slots.openNodes sequents).2 ∧
      Gains a b ids tree parent (a.slots.openNodes sequents).1 := by
  induction sequents generalizing a ids with
  | nil => exact ⟨a, rfl, rfl, .nil h⟩
  | cons sequent rest ih =>
      obtain ⟨hid, hslots, hgains⟩ := Gains.alloc h tree parent sequent
      obtain ⟨b, hrun, hslots', hgains'⟩ := ih hgains.holds
      rw [hslots] at hrun hslots' hgains'
      refine ⟨b, ?_, hslots', hgains.cons hgains'⟩
      rw [Work.each, Work.perform_bind, Work.bind_ok hrun, hid]
      rfl

/-! ## Copies -/

section Copy

variable (s : Slots) (t)

/-- A copy takes one slot for the top and then those for the children. -/
theorem copy_slots : (s.copy t).2 = (s.alloc.2.copyAmong t.children).2 := by
  cases t <;> rfl

/-- The copy of the top is under the first handle given out. -/
theorem copy_id : (s.copy t).1.id = s.alloc.1 := by
  cases t <;> rfl

/-- The children of a copy are copies of the children. -/
theorem copy_children : (s.copy t).1.children = (s.alloc.2.copyAmong t.children).1 := by
  cases t <;> rfl

/-- A copy is stored like its original, but for the children. -/
theorem copy_stored (tree tree' : TreeId) (parent parent' : Option NodeId) :
    (s.copy t).1.stored tree' parent' = { t.stored tree parent with
      tree := tree'
      parent := parent'
      children := (s.alloc.2.copyAmong t.children).1.map ProofTree.id } := by
  cases t <;> rfl

end Copy

/-- Copying the subtree into the tree gives the copy that the slots give,
    from every arena that stores it. -/
def Copyable (tree' : TreeId) (t : ProofTree) : Prop :=
  ∀ (a : Arena) (ids : List NodeId) (tree : TreeId) (parent parent' : Option NodeId) (turns : Nat),
    a.Holds ids → Stores a.data? tree parent t → (∀ n ∈ t.ids, n ∈ ids) → t.ids.length ≤ turns →
    ∃ b, copyNode tree' turns t.id parent' a = some (.ok (a.slots.copy t).1.id, b) ∧
      b.slots = (a.slots.copy t).2 ∧ Gains a b ids tree' parent' [(a.slots.copy t).1]

/-- Children are copied one after the other. -/
theorem each_copyNode {cs : List ProofTree} {ids : List NodeId} (turns : Nat) (id : NodeId)
    (hcopy : ∀ c ∈ cs, Copyable tree' c) (hheld : a.Holds ids)
    (hstored : ∀ c ∈ cs, Stores a.data? tree parent c) (hlive : ∀ n ∈ cs.flatMap ProofTree.ids, n ∈ ids)
    (hturns : ∀ c ∈ cs, c.ids.length ≤ turns) :
    ∃ b, Work.each (fun child => copyNode tree' turns child (some id)) (cs.map ProofTree.id) a =
        some (.ok ((a.slots.copyAmong cs).1.map ProofTree.id), b) ∧
      b.slots = (a.slots.copyAmong cs).2 ∧ Gains a b ids tree' (some id) (a.slots.copyAmong cs).1 := by
  induction cs generalizing a ids with
  | nil => exact ⟨a, rfl, rfl, .nil hheld⟩
  | cons c rest ih =>
      rw [List.flatMap_cons] at hlive
      obtain ⟨a', hrun, hslots, hgains⟩ := hcopy c List.mem_cons_self a ids tree parent (some id)
        turns hheld (hstored c List.mem_cons_self) (fun n hn => hlive n (List.mem_append_left _ hn))
        (hturns c List.mem_cons_self)
      -- the copies go into slots of their own
      have hkept : ∀ d ∈ rest, Stores a'.data? tree parent d := fun d hd =>
        (hstored d (List.mem_cons_of_mem _ hd)).congr fun n hn => hgains.kept n
          (hlive n (List.mem_append_right _ (List.mem_flatMap.mpr ⟨d, hd, hn⟩)))
      obtain ⟨b, hrun', hslots', hgains'⟩ := ih (fun d hd => hcopy d (List.mem_cons_of_mem _ hd))
        hgains.holds hkept
        (fun n hn => List.mem_append_right _ (hlive n (List.mem_append_right _ hn)))
        (fun d hd => hturns d (List.mem_cons_of_mem _ hd))
      rw [hslots] at hrun' hslots' hgains'
      refine ⟨b, ?_, hslots', hgains.cons hgains'⟩
      rw [List.map_cons, Work.each, Work.bind_ok hrun, Work.bind_ok hrun']
      rfl

/-- A child has fewer nodes than the tree. -/
theorem length_ids_child {c : ProofTree} (hc : c ∈ t.children) : c.ids.length < t.ids.length := by
  rw [ProofTree.ids_eq t, List.length_cons, Nat.lt_succ_iff]
  rw [List.flatMap_def]
  exact (List.sublist_flatten_of_mem (List.mem_map_of_mem hc)).length_le

/-- A walk that has a turn for each node has one for the top. -/
theorem exists_turn {turns : Nat} (h : t.ids.length ≤ turns) : ∃ k, turns = k + 1 := by
  refine Nat.exists_eq_add_one_of_ne_zero fun hzero => ?_
  rw [hzero, ProofTree.ids_eq] at h
  exact absurd h (Nat.not_succ_le_zero _)

/-- A new node, then children below it, and then the node with the children
    listed: the whole subtree is gained. -/
theorem Gains.above {b : Arena} {ids : List NodeId} {d : NodeData} (hheld : a.Holds ids)
    (hid : (a.alloc d).1 = t.id)
    (hgains : Gains (a.alloc d).2 b (t.id :: ids) tree (some t.id) t.children)
    (parent : Option NodeId) :
    b.data? t.id = some d ∧ Gains a (b.put t.id (t.stored tree parent)) ids tree parent [t] := by
  obtain ⟨hholds, -, -, hdata⟩ := hheld.alloc d
  rw [hid] at hholds hdata
  have hfresh := (List.nodup_cons.mp hholds.slots.nodup).1
  have htop : b.data? t.id = some d := by
    rw [hgains.kept _ List.mem_cons_self, hdata, Function.update_self]
  have hall : b.Holds (t.ids ++ ids) := by
    refine hgains.holds.perm ?_
    rw [ProofTree.ids_eq]
    exact List.perm_middle
  have hnodup := (List.nodup_append.mp hall.slots.nodup).1
  refine ⟨htop, ?_, fun c hc => ?_, fun n hn => ?_, ?_⟩
  · rw [List.flatMap_singleton]
    exact (Rewrites.put htop _).holds hall
  · rw [List.mem_singleton.mp hc, data?_put htop]
    exact .of_update hgains.stored (id_not_below hnodup)
  · have hne : n ≠ t.id := fun heq => hfresh (heq ▸ hn)
    rw [data?_put_of_ne htop _ hne, hgains.kept n (List.mem_cons_of_mem _ hn), hdata,
      Function.update_of_ne hne]
  · exact (SameBooks.alloc a d).trans (hgains.books.trans ⟨rfl, rfl, rfl⟩)

/-- Copying works for every subtree. -/
theorem copyable (tree' : TreeId) (t : ProofTree) : Copyable tree' t := by
  induction t using ProofTree.children_induct with
  | step t ih =>
      intro a ids tree parent parent' turns hheld hstored hlive hturns
      obtain ⟨turns, rfl⟩ := exists_turn hturns
      let d : NodeData :=
        { t.stored tree parent with tree := tree', parent := parent', children := [] }
      obtain ⟨hholds, hid, hslots, hdata⟩ := hheld.alloc d
      rw [← copy_id t] at hid
      rw [hid] at hholds hdata
      have hfresh := (List.nodup_cons.mp hholds.slots.nodup).1
      have hbelow : ∀ c ∈ t.children, ∀ n ∈ c.ids, n ∈ ids := fun c hc n hn =>
        hlive n (mem_ids_of_child hc hn)
      have hchildren : ∀ c ∈ t.children, Stores (a.alloc d).2.data? tree (some t.id) c := by
        refine fun c hc => (hstored.child c hc).congr fun n hn => ?_
        rw [hdata, Function.update_of_ne]
        rintro rfl
        exact hfresh (hbelow c hc _ hn)
      -- the children are copied below the node that is stored already
      obtain ⟨b, hrun, hslots', hgains⟩ := each_copyNode turns (a.slots.copy t).1.id ih hholds
        hchildren
        (fun n hn => by
          obtain ⟨c, hc, hmem⟩ := List.mem_flatMap.mp hn
          exact List.mem_cons_of_mem _ (hbelow c hc n hmem))
        (fun c hc => Nat.le_of_lt_succ (Nat.lt_of_lt_of_le (length_ids_child hc) hturns))
      rw [hslots] at hrun hslots' hgains
      rw [← copy_children] at hrun hgains
      rw [← copy_slots] at hslots'
      obtain ⟨htop, hcopied⟩ := Gains.above hheld hid hgains parent'
      have hwritten : { d with children := (a.slots.copy t).1.children.map ProofTree.id } =
          (a.slots.copy t).1.stored tree' parent' := by
        rw [copy_stored t _ tree _ parent, copy_children]
      refine ⟨_, ?_, (Rewrites.put htop _).slots.trans hslots', hcopied⟩
      rw [copyNode, Work.bind_ok (data_ok hstored.top), Work.perform_bind, hid]
      show (Work.each _ (t.children.map ProofTree.id) >>= _) (a.alloc d).2 = _
      rw [Work.bind_ok hrun, Work.bind_ok (write_ok htop _), hwritten]
      rfl

end Arena

end SequentProver
