import SequentProver.Proofs.Arena.Edit
import SequentProver.Proofs.Arena.Refresh
import SequentProver.Proofs.Arena.Shape
import SequentProver.Proofs.Batches

/-! # An arena and the forest it stores

    `a.Mirrors f` says that the arena stores the forest: the slots and the
    books agree, and every tree is laid out under its own handle.  Work on
    the arena follows an operation of the forest if it ends with the same
    answer and stores the forest after it.

    Route:
    1. the relation, and looking up nodes and trees through it;
    2. `Follows`, and work done one piece after the other;
    3. batches;
    4. an edit of one node. -/

namespace SequentProver

/-- What is stored for a tree; of its proof only the root. -/
def Tree.entry (t : Tree) : Arena.TreeEntry :=
  ⟨t.id, t.origin, t.proof.id, t.records, t.batches, t.listeners, t.nextListener⟩

namespace Arena

variable {allowed : Rule → Prop} {a b : Arena} {f : Forest} {t : Tree} {n : NodeId}
  {p : ProofTree} {d : NodeData} {tree : TreeId}

/-- The arena stores the forest. -/
structure Mirrors (a : Arena) (f : Forest) : Prop where
  slots : a.slots = f.slots
  /-- Free slots are empty. -/
  tidy : ∀ n, n.index ∈ a.free → a.data? n = none
  trees : a.trees = f.trees.map Tree.entry
  nextTree : a.nextTree = f.nextTree
  notices : a.notices = f.notices
  /-- Every tree is laid out from its root, which has no parent. -/
  stored : ∀ t ∈ f.trees, Stores a.data? t.id none t.proof

/-- No trees are stored as no trees. -/
theorem empty_mirrors : Arena.empty.Mirrors Forest.empty where
  slots := rfl
  tidy _ h := nomatch h
  trees := rfl
  nextTree := rfl
  notices := rfl
  stored _ h := nomatch h

/-! ## Looking up -/

/-- The handles of a tree are in use. -/
theorem mem_all_ids (ht : t ∈ f.trees) (hn : n ∈ t.proof.ids) :
    n ∈ (f.bench []).all.flatMap ProofTree.ids :=
  List.mem_flatMap.mpr ⟨_, Bench.mem_all_of_mem (List.mem_map.mpr ⟨t, ht, rfl⟩), hn⟩

namespace Mirrors

variable (h : a.Mirrors f)
include h

/-- A tree is looked up by its entry. -/
theorem tree? (tree : TreeId) : a.tree? tree = (f.tree? tree).map Tree.entry := by
  rw [Arena.tree?, h.trees, List.find?_map]
  rfl

/-- A node that the forest knows is stored, with all below it. -/
theorem exists_stores (located : f.locate? n = some (t, p)) :
    ∃ parent, Stores a.data? t.id parent p := by
  obtain ⟨u, hu, hfound⟩ := List.exists_of_findSome?_eq_some located
  obtain ⟨q, hq, heq⟩ := Option.map_eq_some_iff.mp hfound
  cases heq
  exact (h.stored t hu).find? hq

/-- What is stored for such a node. -/
theorem exists_data? (located : f.locate? n = some (t, p)) :
    ∃ parent, a.data? n = some (p.stored t.id parent) := by
  obtain ⟨parent, hstored⟩ := h.exists_stores located
  obtain ⟨u, -, hfound⟩ := List.exists_of_findSome?_eq_some located
  obtain ⟨q, hq, heq⟩ := Option.map_eq_some_iff.mp hfound
  cases heq
  exact ⟨parent, ProofTree.id_of_find? hq ▸ hstored.top⟩

variable (hf : (f.bench []).Wf allowed)
include hf

/-- The handles in use are those of the nodes in the trees. -/
theorem holds : a.Holds ((f.bench []).all.flatMap ProofTree.ids) := by
  refine ⟨?_, h.tidy⟩
  rw [h.slots]
  exact hf.held

/-- There are slots for all nodes of a tree. -/
theorem room (ht : t ∈ f.trees) : t.proof.ids.length ≤ a.nodes.length :=
  (h.holds hf).room (Forest.nodup_ids hf ht) fun _ hm => mem_all_ids ht hm

/-- What is stored is stored for a node of the forest. -/
theorem exists_locate? (hn : a.data? n = some d) : ∃ t p, f.locate? n = some (t, p) := by
  have hlive := (Forest.mem_ids_all hf).mp ((h.holds hf).mem_of_data? hn)
  obtain ⟨p, hnode⟩ := Option.isSome_iff_exists.mp hlive
  obtain ⟨⟨t, q⟩, located, -⟩ := Option.map_eq_some_iff.mp hnode
  exact ⟨t, q, located⟩

/-- A handle that the forest does not know has nothing stored. -/
theorem data?_eq_none (hnone : f.locate? n = none) : a.data? n = none := by
  cases hdata : a.data? n with
  | none => rfl
  | some d =>
      obtain ⟨t, p, located⟩ := h.exists_locate? hf hdata
      exact absurd (hnone.symm.trans located) (Option.some_ne_none _).symm

/-- The tree that is stored for a node is the one that has the node. -/
theorem mem_ids_of_tree (ht : t ∈ f.trees) (hn : a.data? n = some d) (hd : d.tree = t.id) :
    n ∈ t.proof.ids := by
  obtain ⟨u, p, located⟩ := h.exists_locate? hf hn
  obtain ⟨parent, hstored⟩ := h.exists_data? located
  obtain ⟨hu, hfind⟩ := (Forest.locate?_eq_some hf).mp located
  rw [hstored] at hn
  cases hn
  have hsame : u = t := List.inj_on_of_nodup_map (Forest.nodup_trees hf) hu ht hd
  exact hsame ▸ ProofTree.mem_ids_of_find? hfind

end Mirrors

/-! ## Following -/

/-- The work ends with the answer and stores the forest. -/
def Follows {α : Type} (w : Work α) (a : Arena) (out : Except TreeError α × Forest) : Prop :=
  ∃ b, w a = some (out.1, b) ∧ b.Mirrors out.2

namespace Follows

variable {α β : Type} {w : Work α} {next : α → Work β} {out : Except TreeError β × Forest}

/-- After an answer the rest follows from the forest that is stored then. -/
theorem andThen {x : α} {g : Forest} (hw : Follows w a (.ok x, g))
    (hnext : ∀ b, b.Mirrors g → Follows (next x) b out) : Follows (w >>= next) a out := by
  obtain ⟨b, hrun, hb⟩ := hw
  obtain ⟨c, hrun', hc⟩ := hnext b hb
  exact ⟨c, (Work.bind_ok hrun).trans hrun', hc⟩

/-- After a refusal there is no rest. -/
theorem refused {e : TreeError} {g : Forest} (hw : Follows w a (.error e, g)) :
    Follows (w >>= next) a (.error e, g) := by
  obtain ⟨b, hrun, hb⟩ := hw
  exact ⟨b, Work.bind_error hrun, hb⟩

/-- A refusal that is taken for an answer. -/
theorem attempt {answer : Except TreeError α} {g : Forest} (hw : Follows w a (answer, g)) :
    Follows w.attempt a (.ok answer, g) := by
  obtain ⟨b, hrun, hb⟩ := hw
  exact ⟨b, Work.attempt_of hrun, hb⟩

/-- Only what comes of the work matters. -/
theorem of_eq {w' : Work α} {out : Except TreeError α × Forest} (heq : w a = w' b)
    (hw : Follows w' b out) : Follows w a out := by
  obtain ⟨b, hrun, hb⟩ := hw
  exact ⟨b, heq.trans hrun, hb⟩

/-- Looking something up leaves the arena alone. -/
theorem asked {look : Arena → α} {x : α} (hlook : look a = x) (hnext : Follows (next x) a out) :
    Follows (Work.ask look >>= next) a out :=
  .of_eq ((Work.ask_bind look a).trans (congrArg (fun y => next y a) hlook)) hnext

/-- Work that is only done if it is asked for. -/
theorem optional {out : Except TreeError α × Forest} {x : α} (h : a.Mirrors f)
    (hw : Follows w a out) (wanted : Bool) :
    Follows (if wanted then w else pure x) a (if wanted then out else (.ok x, f)) := by
  cases wanted with
  | true => exact hw
  | false => exact ⟨a, rfl, h⟩

end Follows

/-! ## Batches -/

/-- A change of the books of one tree. -/
theorem Mirrors.updateTree {change : Tree → Tree} {change' : TreeEntry → TreeEntry}
    (h : a.Mirrors f) (tree : TreeId) (hentry : ∀ t, (change t).entry = change' t.entry)
    (hid : ∀ t, (change t).id = t.id) (hproof : ∀ t, (change t).proof = t.proof) :
    (a.updateTree tree change').Mirrors (f.updateTree tree change) := by
  refine ⟨h.slots, h.tidy, ?_, h.nextTree, h.notices, fun t ht => ?_⟩
  · show a.trees.map _ = (f.trees.map _).map Tree.entry
    rw [h.trees, List.map_map, List.map_map]
    refine List.map_congr_left fun t _ => ?_
    by_cases htree : t.id = tree
    · show (if t.id = tree then _ else _) = Tree.entry (if t.id = tree then _ else _)
      rw [if_pos htree, if_pos htree, hentry]
    · show (if t.id = tree then _ else _) = Tree.entry (if t.id = tree then _ else _)
      rw [if_neg htree, if_neg htree]
  · obtain ⟨u, hu, rfl⟩ := List.mem_map.mp ht
    show Stores a.data? (if u.id = tree then change u else u).id none
      (if u.id = tree then change u else u).proof
    split
    · rw [hid, hproof]
      exact h.stored u hu
    · exact h.stored u hu

theorem Mirrors.begun (h : a.Mirrors f) (tree : TreeId) :
    (a.updateTree tree fun t => { t with batches := t.batches + 1 }).Mirrors
      (f.beginBatch tree) :=
  h.updateTree tree (fun _ => rfl) (fun _ => rfl) fun _ => rfl

/-- What is recorded is forgotten in both. -/
theorem Mirrors.forgot (h : a.Mirrors f) (tree : TreeId) :
    (a.updateTree tree fun t => { t with records := [] }).Mirrors
      (f.updateTree tree fun t => { t with records := [] }) :=
  h.updateTree tree (fun _ => rfl) (fun _ => rfl) fun _ => rfl

/-- Opening a batch on a tree that there is. -/
theorem beginBatch_follows (h : a.Mirrors f) (htree : f.tree? tree = some t) :
    Follows (beginBatch tree) a (.ok (), f.beginBatch tree) := by
  refine ⟨_, ?_, h.begun tree⟩
  rw [beginBatch, Work.ask_bind, h.tree?, htree]
  rfl

/-- Without a tree there is no batch to open. -/
theorem beginBatch_refused (h : a.Mirrors f) (htree : f.tree? tree = none) :
    Follows (beginBatch tree) a (.error (.unknownTree tree), f.beginBatch tree) := by
  have hsame : f.beginBatch tree = f := by
    have hother : ∀ t ∈ f.trees, t.id ≠ tree := by simpa using List.find?_eq_none.mp htree
    have htrees : (f.beginBatch tree).trees = f.trees :=
      (List.map_congr_left fun t ht => if_neg (hother t ht)).trans (List.map_id' f.trees)
    exact congrArg (fun trees => { f with trees := trees }) htrees
  refine ⟨a, ?_, hsame.symm ▸ h⟩
  rw [beginBatch, Work.ask_bind, h.tree?, htree]
  rfl

/-- The end of a batch inside another one. -/
theorem endBatch_nested (htree : f.tree? tree = some t) (hnested : ¬ t.batches ≤ 1) :
    f.endBatch tree = f.updateTree tree fun t => { t with batches := t.batches - 1 } := by
  rw [Forest.endBatch, htree]
  exact if_neg hnested

/-- The end of the outermost batch. -/
theorem endBatch_last (htree : f.tree? tree = some t) (hlast : t.batches ≤ 1) :
    f.endBatch tree = { (f.updateTree tree fun t => { t with batches := t.batches - 1 }).updateTree
      tree fun t => { t with records := [] } with notices := f.notices ++ t.told } := by
  rw [Forest.endBatch, htree, Tree.told, if_pos hlast]
  refine (if_pos hlast).trans ?_
  cases t.delta? <;> rfl

/-- Records that are empty need not be forgotten. -/
theorem forget_nothing (hf : (f.bench []).Wf allowed) (htree : f.tree? tree = some t)
    (hrecords : t.records = []) :
    ((f.updateTree tree fun t => { t with batches := t.batches - 1 }).updateTree tree
      fun t => { t with records := [] }) =
      f.updateTree tree fun t => { t with batches := t.batches - 1 } := by
  rw [Forest.updateTree, Forest.updateTree, List.map_map]
  refine congrArg (fun trees => { f with trees := trees }) (List.map_congr_left fun u hu => ?_)
  by_cases hid : u.id = tree
  · cases ((Forest.tree?_eq_some hf).mpr ⟨hu, hid⟩).symm.trans htree
    simp only [Function.comp_apply, if_pos hid, hrecords]
  · simp only [Function.comp_apply, if_neg hid]

/-- Without records there is nothing to tell. -/
theorem told_eq_nil (hrecords : t.records = []) : t.told = [] := by
  have hdelta : t.delta? = none := by
    rw [Tree.delta?, hrecords, Option.map_eq_none_iff, ← Option.not_isSome_iff_eq_none,
      ProofTree.isSome_delta?]
    rintro ⟨n, -, hn⟩
    cases hn
  rw [Tree.told, hdelta]
  exact ite_self _

/-- What the listeners are told comes from walks over the stored parents and
    children; the books do not matter for it. -/
theorem tell_ok (h : a.Mirrors f) (hf : (f.bench []).Wf allowed) (ht : t ∈ f.trees)
    (hlast : t.batches ≤ 1) (hnodes : b.nodes = a.nodes) :
    tell t.entry b = some (.ok (), { b with notices := b.notices ++ t.told }) := by
  have hdata : b.data? = a.data? := by
    funext n
    rw [data?, data?, hnodes]
  have hshape : b.shape t.entry.id t.entry.root t.entry.records = some t.delta? := by
    refine shape_ok (hdata ▸ h.stored t ht) (Forest.nodup_ids hf ht) ?_ ?_ t.records
    · rw [hnodes]
      exact h.room hf ht
    · rw [hdata]
      exact fun n d hn hd => h.mem_ids_of_tree hf ht hn hd
  rw [tell, Work.ask_bind, hshape, Tree.told, if_pos hlast]
  cases t.delta? with
  | none =>
      rw [Option.map_none, Option.getD_none, List.append_nil]
      rfl
  | some delta => rfl

/-- Closing a batch. -/
theorem endBatch_follows (h : a.Mirrors f) (hf : (f.bench []).Wf allowed) (tree : TreeId) :
    Follows (endBatch tree) a (.ok (), f.endBatch tree) := by
  cases htree : f.tree? tree with
  | none =>
      refine ⟨a, ?_, ?_⟩
      · rw [endBatch, Work.ask_bind, h.tree?, htree]
        rfl
      · rw [Forest.endBatch, htree]
        exact h
  | some t =>
      obtain ⟨ht, hid⟩ := (Forest.tree?_eq_some hf).mp htree
      let fewer := f.updateTree tree fun t => { t with batches := t.batches - 1 }
      let closed := a.updateTree tree fun t => { t with batches := t.batches - 1 }
      have hclosed : closed.Mirrors fewer :=
        h.updateTree tree (fun _ => rfl) (fun _ => rfl) fun _ => rfl
      -- the batch is counted down before anything is told
      have hrun : endBatch tree a = (if t.batches ≤ 1 ∧ t.records ≠ [] then (do
          Work.update fun a => a.updateTree tree fun t => { t with records := [] }
          tell t.entry : Work Unit) else return ()) closed := by
        rw [endBatch, Work.ask_bind, h.tree?, htree]
        rfl
      rw [Follows, hrun]
      by_cases hlast : t.batches ≤ 1
      · rw [endBatch_last htree hlast]
        -- without records there is nothing to tell, and no listener is called
        by_cases hrecords : t.records = []
        · rw [if_neg fun hboth => hboth.2 hrecords, forget_nothing hf htree hrecords,
            told_eq_nil hrecords]
          exact ⟨closed, rfl, hclosed.slots, hclosed.tidy, hclosed.trees, hclosed.nextTree,
            h.notices.trans (List.append_nil _).symm, hclosed.stored⟩
        · have hforgot := hclosed.forgot tree
          rw [if_pos ⟨hlast, hrecords⟩, Work.update_bind]
          exact ⟨_, tell_ok h hf ht hlast rfl, hforgot.slots, hforgot.tidy, hforgot.trees, hforgot.nextTree,
            congrArg (· ++ t.told) h.notices, hforgot.stored⟩
      · rw [endBatch_nested htree hlast, if_neg fun hboth => hlast hboth.1]
        exact ⟨closed, rfl, hclosed⟩

/-- Work as a batch follows the batch on the forest, if what is done inside
    follows. -/
theorem inBatch_follows {α : Type} {body : Work α} {change : Forest → Except TreeError α × Forest}
    (h : a.Mirrors f) (htree : f.tree? tree = some t)
    (hf : ((f.inBatch tree change).2.bench []).Wf allowed)
    (hbody : ∀ b, b.Mirrors (f.beginBatch tree) → Follows body b (change (f.beginBatch tree))) :
    Follows (inBatch tree body) a (f.inBatch tree change) := by
  rw [Forest.bench_inBatch] at hf
  refine (beginBatch_follows h htree).andThen fun b hb => ?_
  refine (hbody b hb).attempt.andThen fun c hc => ?_
  refine (endBatch_follows hc hf tree).andThen fun d hd => ?_
  exact ⟨d, Work.orRefuse_apply _ _, hd⟩

/-- A batch on the tree that is stored for a node. -/
theorem inBatchAt_follows {α : Type} {body : Work α}
    {change : Forest → Except TreeError α × Forest} (h : a.Mirrors f)
    (hf : (f.bench []).Wf allowed) (located : f.locate? n = some (t, p))
    (hwf : ((f.inBatch t.id change).2.bench []).Wf allowed)
    (hbody : ∀ b, b.Mirrors (f.beginBatch t.id) → Follows body b (change (f.beginBatch t.id))) :
    Follows (data n >>= fun d => inBatch d.tree body) a (f.inBatch t.id change) := by
  obtain ⟨parent, hdata⟩ := h.exists_data? located
  obtain ⟨ht, -⟩ := (Forest.locate?_eq_some hf).mp located
  refine .of_eq (Work.bind_ok (data_ok hdata)) ?_
  exact inBatch_follows h ((Forest.tree?_eq_some hf).mpr ⟨ht, rfl⟩) hwf hbody

/-! ## One node changed -/

section EditNode

variable {change : ProofTree → ProofTree} {e : ProofTree.Edited ProofTree} {flags : DeltaFlags}
  (hnodup : (f.trees.map Tree.id).Nodup) (ht : t ∈ f.trees)
  (he : t.proof.edit n change = some e)
include hnodup ht he

/-- The trees after an edit of one of them. -/
theorem trees_editNode : (f.editNode t.id n flags change).trees =
    f.trees.map fun u => if u.id = t.id then { t with
      proof := e.result
      records := t.records ++ (n, flags) :: e.risen.map fun id => (id, .confidence) } else u := by
  refine List.map_congr_left fun u hu => ?_
  by_cases hid : u.id = t.id
  · cases List.inj_on_of_nodup_map hnodup hu ht hid
    rw [if_pos rfl, if_pos rfl]
    show t.editNode n flags change = _
    rw [Tree.editNode, he]
  · rw [if_neg hid, if_neg hid]

/-- The entries after it have the change and the levels that moved in the
    books. -/
theorem entries_editNode (hid : e.result.id = t.proof.id) :
    (f.editNode t.id n flags change).trees.map Tree.entry =
      noted t.id ((n, flags) :: e.risen.map fun id => (id, .confidence))
        (f.trees.map Tree.entry) := by
  rw [trees_editNode hnodup ht he, noted, List.map_map, List.map_map]
  refine List.map_congr_left fun u hu => ?_
  by_cases hu' : u.id = t.id
  · cases List.inj_on_of_nodup_map hnodup hu ht hu'
    have hentry : t.entry.id = t.id := rfl
    rw [Function.comp_apply, Function.comp_apply, if_pos rfl, if_pos hentry, Tree.entry, Tree.entry,
      hid]
  · have hentry : u.entry.id ≠ t.id := hu'
    rw [Function.comp_apply, Function.comp_apply, if_neg hu', if_neg hentry]

/-- The trees after it are stored if the edited one and the others are. -/
theorem stores_editNode (hedited : Stores b.data? t.id none e.result)
    (hothers : ∀ u ∈ f.trees, u.id ≠ t.id → Stores b.data? u.id none u.proof) :
    ∀ u ∈ (f.editNode t.id n flags change).trees, Stores b.data? u.id none u.proof := by
  rw [trees_editNode hnodup ht he]
  intro u hu
  obtain ⟨v, hv, rfl⟩ := List.mem_map.mp hu
  by_cases hid : v.id = t.id
  · rw [if_pos hid]
    exact hedited
  · rw [if_neg hid]
    exact hothers v hv hid

end EditNode

/-- **Refreshing a changed node is editing the forest.**  The arena `b` has the
    node changed, the other trees as they were, and `more` trees entered. -/
theorem Mirrors.refreshed (change : ProofTree → ProofTree) {more : List TreeEntry}
    (h : a.Mirrors f) (hf : (f.bench []).Wf allowed) (located : f.locate? n = some (t, p))
    (hreplaced : Replaced a.data? b t.id t.proof p (change p))
    (hothers : ∀ m ∈ (f.bench []).all.flatMap ProofTree.ids, m ∉ t.proof.ids →
      b.data? m = a.data? m)
    (hroom : t.proof.ids.length ≤ b.nodes.length) (htrees : b.trees = a.trees ++ more)
    (hmore : ∀ entry ∈ more, entry.id ≠ t.id) (flags : DeltaFlags) :
    ∃ c, (do record t.id n flags; refresh n : Work Unit) b = some (.ok (), c) ∧ b.Rewrites c ∧
      c.trees = (f.editNode t.id n flags change).trees.map Tree.entry ++ more ∧
      (∀ u ∈ (f.editNode t.id n flags change).trees, Stores c.data? u.id none u.proof) ∧
      ∀ m, (m ∈ t.proof.ids → m ∈ p.ids ∧ m ≠ p.id) → c.data? m = b.data? m := by
  obtain ⟨ht, hfind⟩ := (Forest.locate?_eq_some hf).mp located
  have hnodup := Forest.nodup_trees hf
  let noticed : Arena := { b with trees := noted t.id [(n, flags)] b.trees }
  have hreplaced' : Replaced a.data? noticed t.id t.proof p (change p) :=
    ⟨hreplaced.kept, hreplaced.stored, hreplaced.id, hreplaced.top, hreplaced.fresh⟩
  obtain ⟨e, c, hedit, hrun, hclimbed⟩ := refresh_ok change (Forest.nodup_ids hf ht)
    hfind (h.stored t ht) hreplaced' hroom
  refine ⟨c, ?_, (Rewrites.entries b _).trans hclimbed.rewrites, ?_, ?_, hclimbed.kept⟩
  · rw [Work.bind_ok (record_ok t.id n flags b)]
    exact hrun
  · rw [hclimbed.trees, noted_noted, htrees, h.trees, entries_editNode hnodup ht hedit hclimbed.id]
    show noted t.id _ (_ ++ more) = _
    rw [noted, List.map_append]
    exact congrArg _ (noted_of_ne hmore _)
  · refine stores_editNode hnodup ht hedit hclimbed.stored fun u hu hne => ?_
    refine (h.stored u hu).congr fun m hm => ?_
    -- no node of another tree is touched
    have hnot : m ∉ t.proof.ids := fun hmem =>
      hne (congrArg Tree.id (Forest.tree_of_node hf hu ht hm hmem))
    exact (hclimbed.kept m fun hmem => absurd hmem hnot).trans
      (hothers m (mem_all_ids hu hm) hnot)

/-- Such a change of one node, with no tree entered, follows the edit. -/
theorem refresh_follows (change : ProofTree → ProofTree) {ids : List NodeId}
    (h : a.Mirrors f) (hf : (f.bench []).Wf allowed) (located : f.locate? n = some (t, p))
    (hreplaced : Replaced a.data? b t.id t.proof p (change p))
    (hothers : ∀ m ∈ (f.bench []).all.flatMap ProofTree.ids, m ∉ t.proof.ids →
      b.data? m = a.data? m)
    (hheld : b.Holds ids) (hsub : ∀ m ∈ (f.bench []).all.flatMap ProofTree.ids, m ∈ ids)
    (hbooks : SameBooks a b) (flags : DeltaFlags) :
    Follows (do record t.id n flags; refresh n) b
      (.ok (), { f with slots := b.slots }.editNode t.id n flags change) := by
  obtain ⟨ht, -⟩ := (Forest.locate?_eq_some hf).mp located
  have hroom : t.proof.ids.length ≤ b.nodes.length :=
    hheld.room (Forest.nodup_ids hf ht) fun m hm => hsub m (mem_all_ids ht hm)
  have hentries : b.trees = a.trees ++ [] := hbooks.trees.trans (List.append_nil _).symm
  obtain ⟨c, hrun, hrewrites, htrees, hstored, -⟩ := h.refreshed change hf located hreplaced hothers
    hroom hentries (fun _ hentry => nomatch hentry) flags
  exact ⟨c, hrun, hrewrites.slots, (hrewrites.holds hheld).tidy,
    htrees.trans (List.append_nil _),
    hrewrites.nextTree.trans (hbooks.nextTree.trans h.nextTree),
    hrewrites.notices.trans (hbooks.notices.trans h.notices), hstored⟩

end Arena

end SequentProver
