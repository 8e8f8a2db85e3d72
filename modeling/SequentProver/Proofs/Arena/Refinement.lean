import SequentProver.Proofs.Arena.Mirror

/-! # Operations on an arena

    Every operation on an arena that stores a forest ends, with the answer of
    the forest, and stores the forest after it.

    Route:
    1. trees: making, removing and copying them;
    2. nodes: a rule put on, taken off and moved, with the subtrees below;
    3. listeners. -/

namespace SequentProver.Arena

open Forest (ruleFlags)

variable {allowed : Rule → Prop} {a b : Arena} {f : Forest} {t : Tree} {n : NodeId}
  {p : ProofTree} {tree : TreeId}

/-! ## Trees -/

/-- The arena with the next tree counted. -/
def counted (a : Arena) : Arena := { a with nextTree := a.nextTree + 1 }

/-- Counting trees does not touch the slots. -/
theorem Mirrors.holds_counted (h : a.Mirrors f) (hf : (f.bench []).Wf allowed) :
    a.counted.Holds ((f.bench []).all.flatMap ProofTree.ids) :=
  ⟨(h.holds hf).slots, h.tidy⟩

/-- A new subtree that is entered as a tree is planted. -/
theorem enter_follows (h : a.Mirrors f) (hgains : Gains a.counted b
      ((f.bench []).all.flatMap ProofTree.ids) ⟨a.nextTree⟩ none [p]) (origin : Option String) :
    Follows (do enter ⟨⟨a.nextTree⟩, origin, p.id, [], 0, [], 0⟩; return ⟨a.nextTree⟩) b
      (.ok ({ f with slots := b.slots }.plant origin p).1,
        ({ f with slots := b.slots }.plant origin p).2) := by
  refine ⟨{ b with trees := b.trees ++ [⟨⟨a.nextTree⟩, origin, p.id, [], 0, [], 0⟩] }, ?_, rfl,
    hgains.holds.tidy, ?_, ?_, hgains.books.notices.trans h.notices, fun u hu => ?_⟩
  · rw [h.nextTree]
    rfl
  · show b.trees ++ _ = (f.trees ++ _).map Tree.entry
    rw [hgains.books.trees, List.map_append, ← h.trees, h.nextTree]
    rfl
  · show b.nextTree = f.nextTree + 1
    rw [hgains.books.nextTree, ← h.nextTree]
    rfl
  · rcases List.mem_append.mp hu with hold | hnew
    · exact (h.stored u hold).congr fun m hm => hgains.kept m (mem_all_ids hold hm)
    · rw [List.mem_singleton.mp hnew, ← h.nextTree]
      exact hgains.stored p List.mem_cons_self

/-- A new tree is stored as one open node under the next handle. -/
theorem createTree_follows (h : a.Mirrors f) (hf : (f.bench []).Wf allowed) (s : Sequent)
    (origin : Option String) : Follows (createTree s origin) a
      (.ok (f.createTree s origin).1, (f.createTree s origin).2) := by
  obtain ⟨hid, hslots, hgains⟩ := Gains.alloc (h.holds_counted hf) ⟨a.nextTree⟩ none s
  have hentered := enter_follows h hgains origin
  have hsame : a.counted.slots = f.slots := h.slots
  rw [hslots, hsame] at hentered
  refine .of_eq ?_ hentered
  rw [createTree, newTree, Work.perform_bind, Work.perform_bind]
  show (enter ⟨_, _, (a.counted.alloc (.ofSequent ⟨a.nextTree⟩ none s)).1, _, _, _, _⟩ >>= _) _ = _
  rw [hid, hsame]
  rfl

/-- The slots of a tree that is removed are emptied by the walk over its
    nodes. -/
theorem removeTree_follows (h : a.Mirrors f) (hf : (f.bench []).Wf allowed) (tree : TreeId) :
    Follows (removeTree tree) a (.ok (f.removeTree tree).1, (f.removeTree tree).2) := by
  cases htree : f.tree? tree with
  | none =>
      rw [Forest.removeTree, htree]
      refine ⟨a, ?_, h⟩
      rw [removeTree, Work.ask_bind, h.tree?, htree]
      rfl
  | some t =>
      obtain ⟨ht, hid⟩ := (Forest.tree?_eq_some hf).mp htree
      let left : Arena := { a with trees := a.trees.filter fun t => t.id ≠ tree }
      have hheld : f.slots.Holds (t.proof.ids ++
          (((f.bench []).proofs.filter fun u => u.1 ≠ tree).map Prod.snd).flatMap
            ProofTree.ids) := by
        have huprooted := (hf.uprooting (Forest.mem_bench_of_tree? htree []).2).held
        rw [Bench.all, List.flatMap_append] at huprooted
        rw [← List.flatMap_singleton ProofTree.ids t.proof]
        exact huprooted.perm List.perm_append_comm
      have hslots : left.slots = f.slots := h.slots
      have hstored : Stores left.data? t.id none t.proof := h.stored t ht
      -- the entry is gone before the walk over the nodes starts
      obtain ⟨b, hrun, hholds, hslots', hbooks, hkept⟩ :=
        discard_one hstored ⟨hslots.symm ▸ hheld, h.tidy⟩ (h.room hf ht)
      rw [Forest.removeTree, htree]
      refine ⟨b, ?_, hslots'.trans (congrArg (Slots.releaseAll · _) hslots), hholds.tidy, ?_,
        hbooks.nextTree.trans h.nextTree, hbooks.notices.trans h.notices, ?_⟩
      · rw [removeTree, Work.ask_bind, h.tree?, htree]
        show (discard left.nodes.length [t.proof.id] >>= _) left = _
        rw [Work.bind_ok hrun]
        rfl
      · rw [hbooks.trees]
        show a.trees.filter _ = (f.trees.filter _).map Tree.entry
        rw [h.trees, List.filter_map]
        rfl
      -- the trees that stay have none of the emptied slots
      · intro u hu
        obtain ⟨hmem, hne⟩ := List.mem_filter.mp hu
        refine (h.stored u hmem).congr fun m hm => hkept m fun hmem' => ?_
        rw [Forest.tree_of_node hf hmem ht hm hmem'] at hne
        exact of_decide_eq_true hne hid

/-- A copy is entered as a tree. -/
theorem copySubtree_follows (h : a.Mirrors f) (hf : (f.bench []).Wf allowed) (n : NodeId) :
    Follows (copySubtree n) a (f.copySubtree n) := by
  cases hlocate : f.locate? n with
  | none =>
      rw [Forest.copySubtree, Forest.node?, hlocate]
      refine ⟨a, ?_, h⟩
      rw [copySubtree, Work.bind_error (data_error (h.data?_eq_none hf hlocate))]
      rfl
  | some found =>
      obtain ⟨t, p⟩ := found
      obtain ⟨ht, hfind⟩ := (Forest.locate?_eq_some hf).mp hlocate
      obtain ⟨parent, hstored⟩ := h.exists_stores hlocate
      have hid := ProofTree.id_of_find? hfind
      have hlive : ∀ m ∈ p.ids, m ∈ (f.bench []).all.flatMap ProofTree.ids := fun m hm =>
        mem_all_ids ht (mem_ids_of_mem_find? (Forest.nodup_ids hf ht) hfind hm)
      have hroom : p.ids.length ≤ a.nodes.length := (h.holds hf).room
        (ProofTree.nodup_ids_find? (Forest.nodup_ids hf ht) hfind) hlive
      obtain ⟨b, hrun, hslots, hgains⟩ := copyable ⟨a.nextTree⟩ p a.counted _ t.id parent none
        a.nodes.length (h.holds_counted hf) hstored hlive hroom
      have hsame : a.counted.slots = f.slots := h.slots
      have hentered := enter_follows h hgains none
      rw [hslots, hsame] at hentered
      rw [Forest.copySubtree, Forest.node?, hlocate]
      refine .of_eq ?_ hentered
      rw [copySubtree, ← hid, Work.bind_ok (data_ok hstored.top), newTree, Work.perform_bind,
        Work.ask_bind]
      show (copyNode ⟨a.nextTree⟩ a.nodes.length p.id none >>= _) a.counted = _
      rw [Work.bind_ok hrun, hsame]

/-! ## A rule or a comment on a node -/

/-- A rule is stored for the nodes that are not open. -/
theorem isSome_rule (p : ProofTree) (tree : TreeId) (parent : Option NodeId) :
    (p.stored tree parent).rule.isSome = !p.isOpen := by
  cases p <;> rfl

/-- A batch that begins leaves the forest in order. -/
theorem wf_beginBatch (hf : (f.bench []).Wf allowed) (tree : TreeId) :
    ((f.beginBatch tree).bench []).Wf allowed := by
  rw [Forest.bench_beginBatch]
  exact hf

/-- In a batch on a tree its nodes are where they were. -/
theorem locate?_beginBatch (hf : (f.bench []).Wf allowed) (located : f.locate? n = some (t, p)) :
    (f.beginBatch t.id).locate? n = some (t.opened, p) := by
  obtain ⟨ht, hfind⟩ := (Forest.locate?_eq_some hf).mp located
  exact (Forest.locate?_eq_some (wf_beginBatch hf t.id)).mpr
    ⟨List.mem_map.mpr ⟨t, ht, if_pos rfl⟩, hfind⟩

/-- Putting a rule on a node, with an open child for each sequent. -/
theorem attachRule_follows (h : a.Mirrors f) (hf : (f.bench []).Wf allowed)
    (located : f.locate? n = some (t, p)) (rule : Rule) (skipped : SkippedActions)
    (sequents : List Sequent) : Follows (attachRule n rule skipped sequents) a
      (.ok (), { f with slots := (f.slots.openNodes sequents).2 }.editNode t.id n ruleFlags fun p =>
        .applied p.node rule skipped (f.slots.openNodes sequents).1) := by
  obtain ⟨ht, hfind⟩ := (Forest.locate?_eq_some hf).mp located
  obtain ⟨parent, hstored⟩ := h.exists_stores located
  obtain rfl := ProofTree.id_of_find? hfind
  obtain ⟨b, hrun, hslots, hgains⟩ := each_alloc (h.holds hf) t.id (some p.id) sequents
  rw [h.slots] at hrun hslots hgains
  have hmem := ProofTree.mem_ids_of_find? hfind
  have htop : b.data? p.id = some (p.stored t.id parent) :=
    (hgains.kept p.id (mem_all_ids ht hmem)).trans hstored.top
  let q := ProofTree.applied p.node rule skipped (f.slots.openNodes sequents).1
  -- the new handles are in no tree
  have hfresh : ∀ m ∈ q.children.flatMap ProofTree.ids, m ∉ t.proof.ids := fun m hm hold =>
    (List.nodup_append.mp hgains.holds.slots.nodup).2.2 m hm m (mem_all_ids ht hold) rfl
  have hreplaced : Replaced a.data? (b.put p.id (q.stored t.id parent)) t.id t.proof p q :=
    .put hstored (fun m hm _ => hgains.kept m (mem_all_ids ht hm)) htop rfl hgains.stored
      (fun hbelow => hfresh _ hbelow hmem) (fun m hm hold => absurd hold (hfresh m hm))
  have hothers : ∀ m ∈ (f.bench []).all.flatMap ProofTree.ids, m ∉ t.proof.ids →
      (b.put p.id (q.stored t.id parent)).data? m = a.data? m := by
    intro m hm hnot
    have hne : m ≠ p.id := fun heq => hnot (heq ▸ hmem)
    rw [data?_put_of_ne htop _ hne, hgains.kept m hm]
  have hput := Rewrites.put htop (q.stored t.id parent)
  have hrefreshed := refresh_follows
    (fun p => .applied p.node rule skipped (f.slots.openNodes sequents).1) h hf located hreplaced
    hothers (hput.holds hgains.holds) (fun m hm => List.mem_append_right _ hm)
    (hgains.books.trans ⟨rfl, rfl, rfl⟩) ruleFlags
  rw [hput.slots, hslots] at hrefreshed
  refine .of_eq ?_ hrefreshed
  rw [attachRule, Work.bind_ok (data_ok hstored.top)]
  exact (Work.bind_ok hrun).trans (Work.bind_ok (write_ok htop _))

/-- A rule is put on in a batch, or refused by both for the same reason. -/
theorem applyRule_follows {rule : Rule} (h : a.Mirrors f) (hf : (f.bench []).Wf allowed)
    (hrule : allowed rule) (n : NodeId) : Follows (applyRule n rule) a (f.applyRule n rule) := by
  have hwf := hf.moves (Forest.applyRule_moves hf hrule n)
  cases hlocate : f.locate? n with
  | none =>
      rw [Forest.applyRule, hlocate]
      exact ⟨a, Work.bind_error (data_error (h.data?_eq_none hf hlocate)), h⟩
  | some found =>
      obtain ⟨t, p⟩ := found
      obtain ⟨parent, hdata⟩ := h.exists_data? hlocate
      rw [Forest.applyRule, hlocate] at hwf ⊢
      refine .of_eq (Work.bind_ok (data_ok hdata)) ?_
      dsimp only at hwf ⊢
      -- both refuse a node that has a rule already
      cases hopen : p.isOpen with
      | false =>
          rw [isSome_rule, hopen, Bool.not_false, if_pos rfl, if_neg Bool.false_ne_true]
          exact ⟨a, rfl, h⟩
      | true =>
          rw [hopen, if_pos rfl] at hwf
          rw [isSome_rule, hopen, Bool.not_true, if_neg Bool.false_ne_true, if_pos rfl]
          have hsequent : (p.stored t.id parent).sequent = p.sequent := rfl
          rw [hsequent]
          cases hexpand : rule.expand p.sequent with
          | none => exact ⟨a, rfl, h⟩
          | some expanded =>
              obtain ⟨sequents, skipped⟩ := expanded
              rw [hexpand] at hwf
              obtain ⟨ht, -⟩ := (Forest.locate?_eq_some hf).mp hlocate
              -- the batch has to be open before the node is looked up again
              refine inBatch_follows h ((Forest.tree?_eq_some hf).mpr ⟨ht, rfl⟩) hwf fun b hb => ?_
              exact attachRule_follows hb (wf_beginBatch hf t.id)
                (locate?_beginBatch hf hlocate) rule skipped sequents

/-- Writing a comment on a node. -/
theorem writeComment_follows (h : a.Mirrors f) (hf : (f.bench []).Wf allowed)
    (located : f.locate? n = some (t, p)) (comment : String) :
    Follows (do
      write n fun d => { d with comment := comment }
      record t.id n .comment
      refresh n) a
      (.ok (), f.editNode t.id n .comment fun p =>
        p.mapNode fun node => { node with comment := comment }) := by
  obtain ⟨ht, hfind⟩ := (Forest.locate?_eq_some hf).mp located
  obtain ⟨parent, hstored⟩ := h.exists_stores located
  obtain rfl := ProofTree.id_of_find? hfind
  let q := p.mapNode fun node => { node with comment := comment }
  have hchildren : q.children = p.children := ProofTree.children_mapNode _ p
  have hid : q.id = p.id := by rw [ProofTree.id, ProofTree.node_mapNode]; rfl
  have hwritten : { p.stored t.id parent with comment := comment } = q.stored t.id parent := by
    cases p <;> rfl
  have hids := ProofTree.nodup_ids_find? (Forest.nodup_ids hf ht) hfind
  have hreplaced : Replaced a.data? (a.put p.id (q.stored t.id parent)) t.id t.proof p q := by
    refine .put hstored (fun _ _ _ => rfl) hstored.top hid ?_ ?_ ?_
    · rw [hchildren]
      exact hstored.child
    · rw [hchildren]
      exact id_not_below hids
    · rw [hchildren]
      exact fun m hm _ => ProofTree.ids_eq p ▸ List.mem_cons_of_mem _ hm
  have hothers : ∀ m ∈ (f.bench []).all.flatMap ProofTree.ids, m ∉ t.proof.ids →
      (a.put p.id (q.stored t.id parent)).data? m = a.data? m := by
    intro m hm hnot
    exact data?_put_of_ne hstored.top _ fun heq =>
      hnot (heq ▸ ProofTree.mem_ids_of_find? hfind)
  have hput := Rewrites.put hstored.top (q.stored t.id parent)
  have hrefreshed := refresh_follows
    (fun p => p.mapNode fun node => { node with comment := comment }) h hf located hreplaced
    hothers (hput.holds (h.holds hf)) (fun _ hm => hm) ⟨rfl, rfl, rfl⟩ .comment
  rw [hput.slots, h.slots] at hrefreshed
  exact .of_eq (Work.bind_ok (write_ok hstored.top _)) (hwritten ▸ hrefreshed)

/-- A comment is written in a batch, or refused by both. -/
theorem setComment_follows (h : a.Mirrors f) (hf : (f.bench []).Wf allowed) (n : NodeId)
    (comment : String) : Follows (setComment n comment) a (f.setComment n comment) := by
  have hwf := hf.moves (Forest.setComment_moves hf n comment)
  cases hlocate : f.locate? n with
  | none =>
      rw [Forest.setComment, hlocate]
      exact ⟨a, Work.bind_error (data_error (h.data?_eq_none hf hlocate)), h⟩
  | some found =>
      obtain ⟨t, p⟩ := found
      obtain ⟨parent, hdata⟩ := h.exists_data? hlocate
      rw [Forest.setComment, hlocate] at hwf ⊢
      refine .of_eq (Work.bind_ok (data_ok hdata)) ?_
      dsimp only at hwf ⊢
      have hcomment : (p.stored t.id parent).comment = p.comment := rfl
      rw [hcomment]
      -- a comment that is there already makes no batch
      by_cases hsame : p.comment = comment
      · rw [if_pos hsame, if_pos hsame]
        exact ⟨a, rfl, h⟩
      · rw [if_neg hsame] at hwf
        rw [if_neg hsame, if_neg hsame]
        obtain ⟨ht, hfind⟩ := (Forest.locate?_eq_some hf).mp hlocate
        refine inBatch_follows h ((Forest.tree?_eq_some hf).mpr ⟨ht, rfl⟩) hwf fun b hb => ?_
        exact writeComment_follows hb (wf_beginBatch hf t.id)
          (locate?_beginBatch hf hlocate) comment

/-! ## Subtrees taken off a node -/

/-- Proofs planted as trees, under handles from `next` on. -/
def planted (next : Nat) : List ProofTree → List Tree
  | [] => []
  | p :: rest => { id := ⟨next⟩, proof := p } :: planted (next + 1) rest

/-- Trees that are planted are numbered from the next number on. -/
theorem planted_id_ge {next : Nat} {ps : List ProofTree} :
    ∀ u ∈ planted next ps, next ≤ u.id.number := by
  induction ps generalizing next with
  | nil => exact fun u hu => nomatch hu
  | cons p rest ih =>
      intro u hu
      rcases List.mem_cons.mp hu with rfl | hu
      · exact Nat.le_refl next
      · exact Nat.le_of_succ_le (ih u hu)

/-- What is planted are the given subtrees. -/
theorem proof_of_planted {next : Nat} {ps : List ProofTree} :
    ∀ u ∈ planted next ps, u.proof ∈ ps := by
  induction ps generalizing next with
  | nil => exact fun u hu => nomatch hu
  | cons p rest ih =>
      intro u hu
      rcases List.mem_cons.mp hu with rfl | hu
      · exact List.mem_cons_self
      · exact List.mem_cons_of_mem _ (ih u hu)

/-- Several proofs are planted one after the other. -/
theorem plantAll_eq (f : Forest) (ps : List ProofTree) :
    f.plantAll ps = ((planted f.nextTree ps).map Tree.id,
      { f with trees := f.trees ++ planted f.nextTree ps, nextTree := f.nextTree + ps.length }) := by
  induction ps generalizing f with
  | nil =>
      rw [planted, List.append_nil]
      rfl
  | cons p rest ih =>
      show ((f.plant none p).1 :: ((f.plant none p).2.plantAll rest).1,
        ((f.plant none p).2.plantAll rest).2) = _
      rw [ih]
      show (_ :: _, { f with trees := (f.trees ++ [_]) ++ _, nextTree := f.nextTree + 1 + _ }) = _
      rw [List.append_assoc, Nat.add_assoc, Nat.add_comm 1]
      rfl

/-- Their handles are given out together. -/
theorem newTrees_ok (a : Arena) (ps : List ProofTree) :
    newTrees ps.length a = some (.ok ((planted a.nextTree ps).map Tree.id),
      { a with nextTree := a.nextTree + ps.length }) := by
  induction ps generalizing a with
  | nil => rfl
  | cons p rest ih =>
      rw [List.length_cons, newTrees, newTree, Work.perform_bind, Work.bind_ok (ih _)]
      show some (_, { a with nextTree := a.nextTree + 1 + _ }) = _
      rw [Nat.add_assoc, Nat.add_comm 1]
      rfl

/-- Where a step changes the nodes of one subtree only, the others stay
    stored. -/
theorem stores_rest {b : Arena} {c : ProofTree} {rest : List ProofTree} {old : TreeId}
    {parent : Option NodeId} (hstored : ∀ d ∈ c :: rest, Stores a.data? old parent d)
    (hapart : ∀ m ∈ c.ids, ∀ m' ∈ rest.flatMap ProofTree.ids, m ≠ m')
    (hkept : ∀ m, m ∉ c.ids → b.data? m = a.data? m) :
    ∀ d ∈ rest, Stores b.data? old parent d := by
  intro d hd
  refine (hstored d (List.mem_cons_of_mem _ hd)).congr fun m hm => hkept m fun hmem => ?_
  exact hapart m hmem m (List.mem_flatMap.mpr ⟨d, hd, hm⟩) rfl

/-- Subtrees become trees of their own, one after the other. -/
theorem uprootEach_ok (next : Nat) {cs : List ProofTree} {old : TreeId} {parent : Option NodeId}
    (hstored : ∀ c ∈ cs, Stores a.data? old parent c) (hids : (cs.flatMap ProofTree.ids).Nodup)
    (hroom : ∀ c ∈ cs, c.ids.length ≤ a.nodes.length) :
    ∃ b, uprootEach (cs.map ProofTree.id) ((planted next cs).map Tree.id) a = some (.ok (), b) ∧
      a.Rewrites b ∧ b.trees = a.trees ++ (planted next cs).map Tree.entry ∧
      (∀ u ∈ planted next cs, Stores b.data? u.id none u.proof) ∧
      ∀ m, m ∉ cs.flatMap ProofTree.ids → b.data? m = a.data? m := by
  -- the subtrees are taken off in turn; the ones still to come are untouched so far
  induction cs generalizing a next with
  | nil => exact ⟨a, rfl, .refl a, (List.append_nil _).symm, fun u hu => (nomatch hu), fun _ _ => rfl⟩
  | cons c rest ih =>
      rw [List.flatMap_cons, List.nodup_append] at hids
      obtain ⟨moved, hrun, hrewrites, htrees, hmoved, hkept⟩ := reparent_ok
        (hstored c List.mem_cons_self) hids.1 (hroom c List.mem_cons_self) none ⟨next⟩
      let entered : Arena := { moved with trees := moved.trees ++ [⟨⟨next⟩, none, c.id, [], 0, [], 0⟩] }
      have hentered : a.Rewrites entered := hrewrites.trans (.entries moved _)
      obtain ⟨b, hrun', hrewrites', htrees', hstored', hkept'⟩ := ih (a := entered) (next + 1)
        (stores_rest hstored hids.2.2 hkept) hids.2.1
        fun d hd => hentered.length ▸ hroom d (List.mem_cons_of_mem _ hd)
      refine ⟨b, ?_, hentered.trans hrewrites', ?_, ?_, fun m hm => ?_⟩
      · rw [planted, List.map_cons, List.map_cons, uprootEach, Work.bind_ok hrun]
        exact hrun'
      · rw [htrees', planted, List.map_cons, List.append_cons, ← htrees]
        rfl
      · refine List.forall_mem_cons.mpr ⟨hmoved.congr fun m hm => hkept' m fun hmem => ?_, hstored'⟩
        exact hids.2.2 m hm m hmem rfl
      · rw [List.flatMap_cons, List.mem_append, not_or] at hm
        exact (hkept' m hm.2).trans (hkept m hm.1)

/-- A subtree with its rule written off: the children stay where they are. -/
theorem bare_ok {parent : Option NodeId} (hstored : Stores a.data? tree parent p)
    (hids : p.ids.Nodup) (t : ProofTree) :
    Replaced a.data? (a.put p.id (p.withoutRule.stored tree parent)) tree t p p.withoutRule ∧
      ∀ c ∈ p.children,
        Stores (a.put p.id (p.withoutRule.stored tree parent)).data? tree (some p.id) c := by
  refine ⟨.put hstored (fun _ _ _ => rfl) hstored.top rfl (fun c hc => nomatch hc)
    (fun hmem => nomatch hmem) (fun m hm _ => nomatch hm), fun c hc => ?_⟩
  refine (hstored.child c hc).congr fun m hm => data?_put_of_ne hstored.top _ ?_
  rintro rfl
  exact id_not_below hids (List.mem_flatMap.mpr ⟨c, hc, hm⟩)

/-- The handles below a node. -/
theorem mem_below {m : NodeId} (hids : p.ids.Nodup) (hm : m ∈ p.children.flatMap ProofTree.ids) :
    m ∈ p.ids ∧ m ≠ p.id := by
  refine ⟨ProofTree.ids_eq p ▸ List.mem_cons_of_mem _ hm, ?_⟩
  rintro rfl
  exact id_not_below hids hm

/-- Taking the rule off a node makes trees of the subtrees below it. -/
theorem uproot_ok {parent : Option NodeId} (hstored : Stores a.data? tree parent p)
    (hids : p.ids.Nodup) (hroom : ∀ c ∈ p.children, c.ids.length ≤ a.nodes.length)
    (t : ProofTree) :
    ∃ b, uproot p.id a = some (.ok ((planted a.nextTree p.children).map Tree.id), b) ∧
      Rewrites { a with nextTree := a.nextTree + p.children.length } b ∧
      b.trees = a.trees ++ (planted a.nextTree p.children).map Tree.entry ∧
      Replaced a.data? b tree t p p.withoutRule ∧
      (∀ u ∈ planted a.nextTree p.children, Stores b.data? u.id none u.proof) ∧
      ∀ m, m ∉ p.ids → b.data? m = a.data? m := by
  -- the handles are reserved and the node is written before its children move
  let reserved : Arena := { a with nextTree := a.nextTree + p.children.length }
  have hreserved : Stores reserved.data? tree parent p := hstored
  have hput := Rewrites.put hreserved.top (p.withoutRule.stored tree parent)
  obtain ⟨hreplaced, hchildren⟩ := bare_ok hreserved hids t
  obtain ⟨b, hrun, hrewrites, htrees, huprooted, hkept⟩ := uprootEach_ok a.nextTree
    hchildren (List.nodup_cons.mp (ProofTree.ids_eq p ▸ hids)).2 (hput.length.symm ▸ hroom)
  refine ⟨b, ?_, hput.trans hrewrites, htrees, ?_, huprooted, fun m hm => ?_⟩
  · have hlength : (p.stored tree parent).children.length = p.children.length :=
      List.length_map ..
    rw [uproot, Work.bind_ok (data_ok hstored.top), hlength,
      Work.bind_ok (newTrees_ok a p.children), Work.bind_ok (write_ok hreserved.top _)]
    exact Work.bind_ok hrun
  · refine hreplaced.congr (fun m _ hnot => hkept m fun hmem => hnot (mem_below hids hmem).1) ?_
    intro m hm
    rw [List.mem_singleton.mp hm]
    exact hkept p.id (id_not_below hids)
  · have hne : m ≠ p.id := fun heq => hm (heq ▸ p.id_mem_ids)
    rw [hkept m fun hmem => hm (mem_below hids hmem).1, data?_put_of_ne hreserved.top _ hne]
    rfl

/-- The children of a node become trees of their own, each with its own handle
    in all its nodes and without a parent at its root. -/
theorem detachChildren_follows (h : a.Mirrors f) (hf : (f.bench []).Wf allowed)
    (located : f.locate? n = some (t, p)) : Follows (detachChildren n) a
      (.ok ((f.editNode t.id n ruleFlags ProofTree.withoutRule).plantAll p.children).1,
        ((f.editNode t.id n ruleFlags ProofTree.withoutRule).plantAll p.children).2) := by
  obtain ⟨ht, hfind⟩ := (Forest.locate?_eq_some hf).mp located
  obtain ⟨parent, hstored⟩ := h.exists_stores located
  obtain rfl := ProofTree.id_of_find? hfind
  have hids := ProofTree.nodup_ids_find? (Forest.nodup_ids hf ht) hfind
  have hinside : ∀ m ∈ p.ids, m ∈ t.proof.ids := fun m hm =>
    mem_ids_of_mem_find? (Forest.nodup_ids hf ht) hfind hm
  have hroom : ∀ c ∈ p.children, c.ids.length ≤ a.nodes.length := fun c hc =>
    (h.holds hf).room (ProofTree.nodup_ids_child hids hc) fun m hm =>
      mem_all_ids ht (hinside m (mem_ids_of_child hc hm))
  obtain ⟨b, hrun, hrewrites, htrees, hreplaced, huprooted, hkept⟩ :=
    uproot_ok hstored hids hroom t.proof
  -- the new handles are above those of all trees
  have hmore : ∀ entry ∈ (planted a.nextTree p.children).map Tree.entry, entry.id ≠ t.id := by
    intro entry hentry heq
    obtain ⟨u, hu, rfl⟩ := List.mem_map.mp hentry
    have hge := planted_id_ge u hu
    have hlt := hf.tree_lt (t.id, t.proof) (List.mem_map.mpr ⟨t, ht, rfl⟩)
    have hid : u.id = t.id := heq
    rw [hid, h.nextTree] at hge
    exact Nat.not_lt.mpr hge hlt
  obtain ⟨c, hrun', hrewrites', htrees', hstored', hkept'⟩ := h.refreshed _ hf located hreplaced
    (fun m _ hnot => hkept m fun hm => hnot (hinside m hm)) (hrewrites.length ▸ h.room hf ht)
    htrees hmore ruleFlags
  have hall := hrewrites.trans hrewrites'
  have hheld : c.Holds ((f.bench []).all.flatMap ProofTree.ids) :=
    hall.holds ⟨(h.holds hf).slots, h.tidy⟩
  have hnext : (f.editNode t.id p.id ruleFlags ProofTree.withoutRule).nextTree = a.nextTree :=
    h.nextTree.symm
  rw [plantAll_eq, hnext]
  refine ⟨c, ?_, hall.slots.trans h.slots, hheld.tidy, ?_, hall.nextTree,
    hall.notices.trans h.notices, fun u hu => ?_⟩
  · rw [detachChildren, Work.bind_ok (data_ok hstored.top), Work.bind_ok hrun, ← Work.bind_assoc]
    exact Work.bind_ok hrun'
  · rw [htrees', List.map_append]
  · rcases List.mem_append.mp hu with hold | hnew
    · exact hstored' u hold
    · -- refreshing does not look below the node
      refine (huprooted u hnew).congr fun m hm => hkept' m fun _ => mem_below hids ?_
      exact List.mem_flatMap.mpr ⟨u.proof, proof_of_planted u hnew, hm⟩

/-- Pruning gives the subtrees back as trees, in a batch, or is refused by
    both. -/
theorem pruneChildren_follows (h : a.Mirrors f) (hf : (f.bench []).Wf allowed) (n : NodeId) :
    Follows (pruneChildren n) a (f.pruneChildren n) := by
  have hwf := hf.moves (Forest.pruneChildren_moves hf n)
  cases hlocate : f.locate? n with
  | none =>
      rw [Forest.pruneChildren, hlocate]
      exact ⟨a, Work.bind_error (data_error (h.data?_eq_none hf hlocate)), h⟩
  | some found =>
      obtain ⟨t, p⟩ := found
      obtain ⟨parent, hdata⟩ := h.exists_data? hlocate
      rw [Forest.pruneChildren, hlocate] at hwf ⊢
      refine .of_eq (Work.bind_ok (data_ok hdata)) ?_
      have hrule : (p.stored t.id parent).rule.isNone = p.isOpen := rfl
      dsimp only at hwf ⊢
      rw [hrule]
      cases hopen : p.isOpen with
      | true => exact ⟨a, rfl, h⟩
      | false =>
          rw [hopen, if_neg Bool.false_ne_true] at hwf
          rw [if_neg Bool.false_ne_true, if_neg Bool.false_ne_true]
          obtain ⟨ht, -⟩ := (Forest.locate?_eq_some hf).mp hlocate
          refine inBatch_follows h ((Forest.tree?_eq_some hf).mpr ⟨ht, rfl⟩) hwf fun b hb => ?_
          exact detachChildren_follows (t := t.opened) hb (wf_beginBatch hf t.id)
            (locate?_beginBatch hf hlocate)

/-- Trees are removed one after the other on both sides. -/
theorem each_removeTree_follows (h : a.Mirrors f) (hf : (f.bench []).Wf allowed)
    (trees : List TreeId) :
    ∃ answers, Follows (Work.each removeTree trees) a (.ok answers, f.removeTrees trees) := by
  induction trees generalizing a f with
  | nil => exact ⟨[], a, rfl, h⟩
  | cons tree rest ih =>
      obtain ⟨b, hrun, hb⟩ := removeTree_follows h hf tree
      obtain ⟨answers, c, hrun', hc⟩ := ih hb (hf.moves (Forest.removeTree_moves tree))
      refine ⟨(f.removeTree tree).1 :: answers, c, ?_, hc⟩
      rw [Work.each, Work.bind_ok hrun, Work.bind_ok hrun']
      rfl

/-- The pruned subtrees are removed again. -/
theorem pruneAndDiscard_follows (h : a.Mirrors f) (hf : (f.bench []).Wf allowed) (n : NodeId) :
    Follows (pruneAndDiscard n) a (f.pruneAndDiscard n) := by
  have hprune := pruneChildren_follows h hf n
  have hwf := hf.moves (Forest.pruneChildren_moves hf n)
  rw [Forest.pruneAndDiscard]
  -- a node that is not pruned leaves nothing to discard
  split <;> rename_i hrun <;> rw [hrun] at hprune hwf
  · exact hprune.refused
  · refine hprune.andThen fun b hb => ?_
    obtain ⟨answers, hremoved⟩ := each_removeTree_follows hb hwf _
    exact hremoved.andThen fun c hc => ⟨c, rfl, hc⟩

/-! ## Subtrees moved to another tree -/

/-- Subtrees move under a node, one after the other. -/
theorem each_reparent {cs : List ProofTree} {old : TreeId} {parent : Option NodeId}
    (hstored : ∀ c ∈ cs, Stores a.data? old parent c) (hids : (cs.flatMap ProofTree.ids).Nodup)
    (hroom : ∀ c ∈ cs, c.ids.length ≤ a.nodes.length) (parent' : Option NodeId) (tree' : TreeId) :
    ∃ answers b, Work.each (fun child => reparent child parent' tree') (cs.map ProofTree.id) a =
        some (.ok answers, b) ∧ a.Rewrites b ∧ b.trees = a.trees ∧
      (∀ c ∈ cs, Stores b.data? tree' parent' c) ∧
      ∀ m, m ∉ cs.flatMap ProofTree.ids → b.data? m = a.data? m := by
  -- as above, but under a parent and without entries for new trees
  induction cs generalizing a with
  | nil => exact ⟨[], a, rfl, .refl a, rfl, fun c hc => (nomatch hc), fun _ _ => rfl⟩
  | cons c rest ih =>
      rw [List.flatMap_cons, List.nodup_append] at hids
      obtain ⟨moved, hrun, hrewrites, htrees, hmoved, hkept⟩ := reparent_ok
        (hstored c List.mem_cons_self) hids.1 (hroom c List.mem_cons_self) parent' tree'
      obtain ⟨answers, b, hrun', hrewrites', htrees', hstored', hkept'⟩ := ih
        (stores_rest hstored hids.2.2 hkept) hids.2.1
        fun d hd => hrewrites.length ▸ hroom d (List.mem_cons_of_mem _ hd)
      refine ⟨() :: answers, b, ?_, hrewrites.trans hrewrites', htrees'.trans htrees, ?_,
        fun m hm => ?_⟩
      · rw [List.map_cons, Work.each, Work.bind_ok hrun, Work.bind_ok hrun']
        rfl
      · refine List.forall_mem_cons.mpr ⟨hmoved.congr fun m hm => hkept' m fun hmem => ?_, hstored'⟩
        exact hids.2.2 m hm m hmem rfl
      · rw [List.flatMap_cons, List.mem_append, not_or] at hm
        exact (hkept' m hm.2).trans (hkept m hm.1)

/-- The rule and the subtrees of one node go to a node of another tree. -/
theorem handOver_ok {d t : ProofTree} {rule : Rule} {source target : TreeId}
    {parent parent' : Option NodeId} (hsource : Stores a.data? source parent d)
    (hrule : d.rule? = some rule) (hids : d.ids.Nodup) (htarget : Stores a.data? target parent' p)
    (hfind : t.find? p.id = some p) (hapart : ∀ m ∈ d.ids, m ∉ t.ids)
    (hroom : d.ids.length ≤ a.nodes.length) :
    ∃ b, handOver d.id p.id a = some (.ok (source, target), b) ∧ a.Rewrites b ∧
      b.trees = a.trees ∧ Replaced a.data? b source d d d.withoutRule ∧
      Replaced a.data? b target t p (.applied p.node rule d.skipped d.children) ∧
      ∀ m, m ∉ d.ids → m ≠ p.id → b.data? m = a.data? m := by
  have hmem := ProofTree.mem_ids_of_find? hfind
  have houtside : p.id ∉ d.ids := fun hm => hapart p.id hm hmem
  have hroot : p.id ≠ d.id := fun heq => houtside (heq ▸ d.id_mem_ids)
  -- the rule off the source
  let bared := a.put d.id (d.withoutRule.stored source parent)
  have hput : a.Rewrites bared := .put hsource.top _
  obtain ⟨hreplaced, hchildren⟩ := bare_ok hsource hids d
  have htaker : bared.data? p.id = some (p.stored target parent') :=
    (data?_put_of_ne hsource.top _ hroot).trans htarget.top
  -- the children below the target
  obtain ⟨answers, b, hrun, hrewrites, htrees, hstored, hkept⟩ := each_reparent hchildren
    (List.nodup_cons.mp (ProofTree.ids_eq d ▸ hids)).2
    (fun c hc => Nat.le_of_lt (Nat.lt_of_lt_of_le (length_ids_child hc) (hput.length.symm ▸ hroom)))
    (some p.id) target
  have hkept' : ∀ m, m ∉ d.ids → b.data? m = a.data? m := by
    intro m hm
    have hne : m ≠ d.id := fun heq => hm (heq ▸ d.id_mem_ids)
    rw [hkept m fun hbelow => hm (mem_below hids hbelow).1, data?_put_of_ne hsource.top _ hne]
  have htop : b.data? p.id = some (p.stored target parent') :=
    (hkept' p.id houtside).trans htarget.top
  -- the rule on the target
  let q := ProofTree.applied p.node rule d.skipped d.children
  have hwritten : { p.stored target parent' with
      rule := d.rule?, skipped := d.skipped, children := d.children.map ProofTree.id } =
      q.stored target parent' := by
    rw [hrule]
    rfl
  have hput' := Rewrites.put htop (q.stored target parent')
  refine ⟨b.put p.id (q.stored target parent'), ?_, hput.trans (hrewrites.trans hput'), htrees,
    ?_, ?_, fun m hm hne => ?_⟩
  · rw [handOver, Work.bind_ok (data_ok hsource.top)]
    refine (Work.bind_ok (write_ok hsource.top _)).trans ?_
    refine (Work.bind_ok (data_ok htaker)).trans ((Work.bind_ok hrun).trans ?_)
    rw [← hwritten]
    exact Work.bind_ok (write_ok htop _)
  · refine hreplaced.congr (fun m hm hnot => absurd hm hnot) fun m hm => ?_
    have hid : m = d.id := List.mem_singleton.mp hm
    rw [hid, data?_put_of_ne htop _ hroot.symm]
    exact hkept d.id (id_not_below hids)
  · exact .put htarget (fun m hm _ => hkept' m fun hd => hapart m hd hm) htop rfl hstored
      (fun hbelow => houtside (mem_below hids hbelow).1)
      fun m hbelow hold => absurd hold (hapart m (mem_below hids hbelow).1)
  · rw [data?_put_of_ne htop _ hne, hkept' m hm]

/-- The handles of the trees are those from before an edit. -/
theorem map_id_editNode (f : Forest) (tree : TreeId) (n : NodeId) (flags : DeltaFlags)
    (change : ProofTree → ProofTree) :
    (f.editNode tree n flags change).trees.map Tree.id = f.trees.map Tree.id := by
  rw [Forest.editNode, Forest.updateTree, List.map_map]
  refine List.map_congr_left fun u _ => ?_
  rw [Function.comp_apply]
  split
  · exact Tree.id_editNode ..
  · rfl

/-- A proof moves from the root of one tree to a node of another: both trees
    are edited, and no node outside of them changes. -/
theorem moveProof_ok {d t : ProofTree} {rule : Rule} {source target : TreeId}
    (hsource : Stores a.data? source none d) (hrule : d.rule? = some rule) (hids : d.ids.Nodup)
    (htarget : Stores a.data? target none t) (hids' : t.ids.Nodup) (hfind : t.find? p.id = some p)
    (hapart : ∀ m ∈ d.ids, m ∉ t.ids) (hroom : d.ids.length ≤ a.nodes.length)
    (hroom' : t.ids.length ≤ a.nodes.length) :
    ∃ e e' b, d.edit d.id ProofTree.withoutRule = some e ∧
      (t.edit p.id fun p => .applied p.node rule d.skipped d.children) = some e' ∧
      moveProof d.id p.id a = some (.ok (), b) ∧ a.Rewrites b ∧
      b.trees = noted target (e'.risen.map fun id => (id, .confidence))
        (noted source (e.risen.map fun id => (id, .confidence))
          (noted target [(p.id, ruleFlags)] (noted source [(d.id, ruleFlags)] a.trees))) ∧
      (Stores b.data? source none e.result ∧ e.result.id = d.id) ∧
      (Stores b.data? target none e'.result ∧ e'.result.id = t.id) ∧
      ∀ m, m ∉ d.ids → m ∉ t.ids → b.data? m = a.data? m := by
  obtain ⟨above, hstored⟩ := htarget.find? hfind
  have hmem := ProofTree.mem_ids_of_find? hfind
  obtain ⟨b, hrun, hrewrites, htrees, hleft, hgot, hkept⟩ :=
    handOver_ok hsource hrule hids hstored hfind hapart hroom
  -- both changes are noted before any level is brought in step
  let booked : Arena := { b with
    trees := noted target [(p.id, ruleFlags)] (noted source [(d.id, ruleFlags)] b.trees) }
  have hbooked : a.Rewrites booked := hrewrites.trans (.entries b _)
  have hleft' : Replaced a.data? booked source d d d.withoutRule :=
    ⟨hleft.kept, hleft.stored, hleft.id, hleft.top, hleft.fresh⟩
  obtain ⟨e, c, hedit, hrun', hclimbed⟩ :=
    refresh_ok _ hids d.find?_id hsource hleft' (hbooked.length ▸ hroom)
  -- the source has one node left, its root
  have hkept' : ∀ m, m ≠ d.id → c.data? m = b.data? m := fun m hm =>
    hclimbed.kept m fun hmem => ⟨hmem, hm⟩
  have hroot : ∀ m ∈ t.ids, m ≠ d.id := fun m hm heq => hapart d.id d.id_mem_ids (heq ▸ hm)
  have hgot' : Replaced a.data? c target t p (.applied p.node rule d.skipped d.children) := by
    refine hgot.congr (fun m hm _ => hkept' m (hroot m hm)) fun m hm => hkept' m ?_
    rw [ProofTree.ids_eq, List.mem_cons] at hm
    rcases hm with rfl | hbelow
    · exact hroot _ hmem
    · exact (mem_below hids hbelow).2
  have hrewrites' := hbooked.trans hclimbed.rewrites
  obtain ⟨e', b', hedit', hrun'', hclimbed'⟩ := refresh_ok
    (fun p => .applied p.node rule d.skipped d.children) hids' hfind htarget hgot'
    (hrewrites'.length ▸ hroom')
  refine ⟨e, e', b', hedit, hedit', ?_, hrewrites'.trans hclimbed'.rewrites, ?_,
    ⟨?_, hclimbed.id⟩, ⟨hclimbed'.stored, hclimbed'.id⟩, fun m hm hm' => ?_⟩
  · rw [moveProof, Work.bind_ok hrun]
    exact (Work.bind_ok hrun').trans hrun''
  · rw [hclimbed'.trees, hclimbed.trees, ← htrees]
  · refine hclimbed.stored.congr fun m hm => hclimbed'.kept m fun hmem' => ?_
    rcases hclimbed.ids m hm with hold | hnew
    · exact absurd hmem' (hapart m hold)
    · exact absurd (List.mem_singleton.mp hnew) (hroot m hmem')
  · rw [hclimbed'.kept m fun hmem' => absurd hmem' hm',
      hkept' m fun heq => hm (heq ▸ d.id_mem_ids), hkept m hm fun heq => hm' (heq ▸ hmem)]

/-- Moving a proof is two edits: the source loses it and the target gets
    it. -/
theorem moveProof_follows {donor : Tree} {rule : Rule} (h : a.Mirrors f)
    (hf : (f.bench []).Wf allowed) (located : f.locate? n = some (t, p))
    (hdonor : donor ∈ f.trees) (hrule : donor.proof.rule? = some rule) (hne : t.id ≠ donor.id) :
    Follows (moveProof donor.proof.id n) a
      (.ok (), (f.editNode donor.id donor.proof.id ruleFlags ProofTree.withoutRule).editNode t.id n
        ruleFlags fun p => .applied p.node rule donor.proof.skipped donor.proof.children) := by
  obtain ⟨ht, hfind⟩ := (Forest.locate?_eq_some hf).mp located
  obtain rfl := ProofTree.id_of_find? hfind
  have hapart : ∀ u ∈ f.trees, ∀ v ∈ f.trees, u.id ≠ v.id → ∀ m ∈ u.proof.ids, m ∉ v.proof.ids :=
    fun u hu v hv huv m hm hm' =>
      huv (congrArg Tree.id (Forest.tree_of_node hf hu hv hm hm'))
  obtain ⟨e, e', b, hedit, hedit', hrun, hrewrites, htrees, ⟨hleft, hid⟩, ⟨hgot, hid'⟩, hkept⟩ :=
    moveProof_ok (h.stored donor hdonor) hrule (Forest.nodup_ids hf hdonor) (h.stored t ht)
      (Forest.nodup_ids hf ht) hfind (hapart donor hdonor t ht hne.symm) (h.room hf hdonor)
      (h.room hf ht)
  -- the two edits of the forest
  let emptied := f.editNode donor.id donor.proof.id ruleFlags ProofTree.withoutRule
  have hnodup := Forest.nodup_trees hf
  have hnodup' : (emptied.trees.map Tree.id).Nodup := by
    rw [map_id_editNode]
    exact hnodup
  have hmem : t ∈ emptied.trees := by
    rw [trees_editNode hnodup hdonor hedit]
    exact List.mem_map.mpr ⟨t, ht, if_neg hne⟩
  refine ⟨b, hrun, hrewrites.slots.trans h.slots, (hrewrites.holds (h.holds hf)).tidy, ?_,
    hrewrites.nextTree.trans h.nextTree, hrewrites.notices.trans h.notices, ?_⟩
  · rw [entries_editNode hnodup' hmem hedit' hid', entries_editNode hnodup hdonor hedit hid, htrees,
      noted_comm hne.symm, noted_noted, noted_noted, h.trees]
    rfl
  · refine stores_editNode hnodup' hmem hedit' hgot ?_
    rw [trees_editNode hnodup hdonor hedit]
    intro u hu hu'
    obtain ⟨v, hv, rfl⟩ := List.mem_map.mp hu
    by_cases hid : v.id = donor.id
    · rw [if_pos hid]
      exact hleft
    · rw [if_neg hid] at hu' ⊢
      exact (h.stored v hv).congr fun m hm =>
        hkept m (hapart v hv donor hdonor hid m hm) (hapart v hv t ht hu' m hm)

/-- The move in a batch on either tree. -/
theorem moveInBatches_follows {donor : Tree} {rule : Rule}
    {change : Forest → Except TreeError Bool × Forest} (h : a.Mirrors f)
    (hf : (f.bench []).Wf allowed) (located : f.locate? n = some (t, p)) (hdonor : donor ∈ f.trees)
    (hrule : donor.proof.rule? = some rule) (hne : t.id ≠ donor.id)
    (hchange : ∀ f, change f =
      (.ok true, (f.editNode donor.id donor.proof.id ruleFlags ProofTree.withoutRule).editNode t.id n
        ruleFlags fun p => .applied p.node rule donor.proof.skipped donor.proof.children))
    (hwf : ((f.inBatch t.id fun f => f.inBatch donor.id change).2.bench []).Wf allowed) :
    Follows (inBatch t.id (inBatch donor.id do
      moveProof donor.proof.id n
      return true)) a (f.inBatch t.id fun f => f.inBatch donor.id change) := by
  obtain ⟨ht, hfind⟩ := (Forest.locate?_eq_some hf).mp located
  have hwf' := hwf
  rw [Forest.bench_inBatch] at hwf'
  -- both trees in the two batches
  have hbegun := wf_beginBatch hf t.id
  have hbegun' := wf_beginBatch hbegun donor.id
  have hdonor' : donor ∈ (f.beginBatch t.id).trees :=
    List.mem_map.mpr ⟨donor, hdonor, if_neg hne.symm⟩
  have hdonor'' : donor.opened ∈ ((f.beginBatch t.id).beginBatch donor.id).trees :=
    List.mem_map.mpr ⟨donor, hdonor', if_pos rfl⟩
  have htarget : t.opened ∈ ((f.beginBatch t.id).beginBatch donor.id).trees :=
    List.mem_map.mpr ⟨t.opened, List.mem_map.mpr ⟨t, ht, if_pos rfl⟩, if_neg hne⟩
  refine inBatch_follows h ((Forest.tree?_eq_some hf).mpr ⟨ht, rfl⟩) hwf fun b hb => ?_
  refine inBatch_follows hb ((Forest.tree?_eq_some hbegun).mpr ⟨hdonor', rfl⟩) hwf' fun c hc => ?_
  rw [hchange]
  have hmoved := moveProof_follows (t := t.opened) hc hbegun'
    ((Forest.locate?_eq_some hbegun').mpr ⟨htarget, hfind⟩) hdonor'' hrule hne
  exact hmoved.andThen fun d hd => ⟨d, rfl, hd⟩

/-- What a graft asks of the two nodes, as one truth value. -/
theorem graftable_iff {s : Sequent} (source : TreeId) :
    (p.isOpen && decide (t.id ≠ source) && p.sequent.sameAs s) = true ↔
      p.isOpen = true ∧ t.id ≠ source ∧ p.sequent.sameAs s = true := by
  rw [Bool.and_eq_true, Bool.and_eq_true, decide_eq_true_eq, and_assoc]

/-- The proof at the root of another tree moves if it begins with a rule and
    the two nodes fit. -/
theorem graftRoot_follows {donor : Tree} (parent : Option NodeId) (h : a.Mirrors f)
    (hf : (f.bench []).Wf allowed) (located : f.locate? n = some (t, p)) (hdonor : donor ∈ f.trees)
    (hwf : ((f.graft n donor.id).2.bench []).Wf allowed) :
    Follows (graftRoot donor.entry n (p.stored t.id parent)) a (f.graft n donor.id) := by
  have htree : f.tree? donor.id = some donor := (Forest.tree?_eq_some hf).mpr ⟨hdonor, rfl⟩
  rw [Forest.graft, located, htree] at hwf ⊢
  refine .of_eq (Work.bind_ok (data_ok (h.stored donor hdonor).top)) ?_
  dsimp only at hwf ⊢
  cases hproof : donor.proof with
  | openNode root =>
      rw [if_neg ?_]
      · exact ⟨a, rfl, h⟩
      · rintro ⟨-, hsome, -⟩
        cases hsome
  | applied root rule skipped children =>
      rw [hproof] at hwf
      dsimp only at hwf ⊢
      by_cases hcond : p.isOpen = true ∧ t.id ≠ donor.id ∧ p.sequent.sameAs root.sequent = true
      · rw [if_pos ((graftable_iff donor.id).mpr hcond)] at hwf
        rw [if_pos ((graftable_iff donor.id).mpr hcond), if_pos ⟨hcond.1, rfl, hcond.2⟩]
        refine moveInBatches_follows h hf located hdonor (congrArg ProofTree.rule? hproof)
          hcond.2.1 (fun f => ?_) hwf
        rw [hproof]
        rfl
      · rw [if_neg fun hall => hcond ((graftable_iff donor.id).mp hall),
          if_neg fun hall => hcond ⟨hall.1, hall.2.2⟩]
        exact ⟨a, rfl, h⟩

/-- A graft moves the proof at the root of another tree to an open node. -/
theorem graft_follows (h : a.Mirrors f) (hf : (f.bench []).Wf allowed) (n : NodeId)
    (source : TreeId) : Follows (graft n source) a (f.graft n source) := by
  have hwf := hf.moves (Forest.graft_moves hf n source)
  cases hlocate : f.locate? n with
  | none =>
      rw [Forest.graft, hlocate]
      exact ⟨a, Work.bind_error (data_error (h.data?_eq_none hf hlocate)), h⟩
  | some found =>
      obtain ⟨t, p⟩ := found
      obtain ⟨parent, hdata⟩ := h.exists_data? hlocate
      refine .of_eq (Work.bind_ok (data_ok hdata)) ?_
      cases htree : f.tree? source with
      | none =>
          rw [Forest.graft, hlocate, htree]
          refine ⟨a, ?_, h⟩
          rw [Work.ask_bind, h.tree?, htree]
          rfl
      | some donor =>
          obtain ⟨hdonor, rfl⟩ := (Forest.tree?_eq_some hf).mp htree
          refine .of_eq ?_ (graftRoot_follows parent h hf hlocate hdonor hwf)
          rw [Work.ask_bind, h.tree?, htree]
          rfl

/-! ## Listeners -/

/-- A listener gets the next number of its tree. -/
theorem addListener_follows (h : a.Mirrors f) (tree : TreeId) :
    Follows (addListener tree) a (f.addListener tree) := by
  rw [Forest.addListener]
  cases htree : f.tree? tree with
  | none =>
      refine ⟨a, ?_, h⟩
      rw [addListener, Work.ask_bind, h.tree?, htree]
      rfl
  | some t =>
      refine ⟨a.updateTree tree fun t => { t with
        listeners := t.listeners ++ [t.nextListener]
        nextListener := t.nextListener + 1 }, ?_,
        h.updateTree tree (fun _ => rfl) (fun _ => rfl) fun _ => rfl⟩
      rw [addListener, Work.ask_bind, h.tree?, htree]
      rfl

/-- A listener is taken off the list of its tree. -/
theorem removeListener_follows (h : a.Mirrors f) (tree : TreeId) (listener : Nat) :
    Follows (removeListener tree listener) a
      (.ok (f.removeListener tree listener).1, (f.removeListener tree listener).2) := by
  rw [Forest.removeListener]
  cases htree : f.tree? tree with
  | none =>
      refine ⟨a, ?_, h⟩
      rw [removeListener, Work.ask_bind, h.tree?, htree]
      rfl
  | some t =>
      refine ⟨a.updateTree tree fun t => { t with
        listeners := t.listeners.filter fun l => l ≠ listener }, ?_,
        h.updateTree tree (fun _ => rfl) (fun _ => rfl) fun _ => rfl⟩
      rw [removeListener, Work.ask_bind, h.tree?, htree]
      rfl

end SequentProver.Arena
