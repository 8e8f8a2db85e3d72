import SequentProver.Proofs.Reachable

/-! # What a replay grows

    Replaying a skeleton goes node by node through the forest.  At an open
    node the outcome depends on the node, the skeleton and the free slots
    only: `regrow` is the subtree that comes out, and the replay puts it in
    place of the node and touches nothing else.

    Route:
    1. `regrow`, by recursion on the skeleton;
    2. one step of a replay: the comment, then the rule;
    3. the replay below a node, one child after another;
    4. a replay on a tree of its own. -/

namespace SequentProver

/-! ## Growing a subtree -/

/-- A node with a recorded comment put back; an empty one is not. -/
def Node.restored (node : Node) (comment : String) : Node :=
  if comment = "" then node else { node with comment := comment }

@[simp]
theorem Node.id_restored (node : Node) (comment : String) :
    (node.restored comment).id = node.id := by
  rw [restored]
  split <;> rfl

@[simp]
theorem Node.sequent_restored (node : Node) (comment : String) :
    (node.restored comment).sequent = node.sequent := by
  rw [restored]
  split <;> rfl

/-- The comment that is put back is the recorded one, unless that is empty. -/
theorem Node.comment_restored (node : Node) (comment : String) :
    (node.restored comment).comment = if comment = "" then node.comment else comment := by
  rw [restored]
  split <;> rfl

namespace ProofTree

mutual

/-- The subtree that a skeleton grows out of an open node, and the slots
    that are left. -/
def regrow (slots : Slots) (node : Node) : Skeleton → ProofTree × Slots
  | .mk comment rule children =>
    match rule with
    | none => ((ProofTree.openNode (node.restored comment)).settled, slots)
    | some rule =>
      match rule.expand node.sequent with
      | none => ((ProofTree.openNode (node.restored comment)).settled, slots)
      | some (sequents, skipped) =>
        let opened := slots.openNodes sequents
        let grown := regrowAmong opened.2 opened.1 children
        ((ProofTree.applied (node.restored comment) rule skipped grown.1).settled, grown.2)

/-- Grow open nodes by skeletons, pairwise; what has no partner is left. -/
def regrowAmong (slots : Slots) : List ProofTree → List Skeleton → List ProofTree × Slots
  | t :: rest, s :: more =>
    let first := regrow slots t.node s
    let others := regrowAmong first.2 rest more
    (first.1 :: others.1, others.2)
  | rest, _ => (rest, slots)

end

variable {slots : Slots} {node : Node} {comment : String} {rule : Rule} {children : List Skeleton}

/-- A skeleton without a rule leaves the node open. -/
theorem regrow_none :
    regrow slots node (.mk comment none children) =
      ((ProofTree.openNode (node.restored comment)).settled, slots) := by
  rw [regrow]

theorem regrow_refused (h : rule.expand node.sequent = none) :
    regrow slots node (.mk comment (some rule) children) =
      ((ProofTree.openNode (node.restored comment)).settled, slots) := by
  rw [regrow]
  dsimp only
  rw [h]

/-- A rule that applies opens its children and grows them. -/
theorem regrow_applied {sequents : List Sequent} {skipped : SkippedActions}
    (h : rule.expand node.sequent = some (sequents, skipped)) :
    regrow slots node (.mk comment (some rule) children) =
      let grown := regrowAmong (slots.openNodes sequents).2 (slots.openNodes sequents).1 children
      ((ProofTree.applied (node.restored comment) rule skipped grown.1).settled, grown.2) := by
  rw [regrow]
  dsimp only
  rw [h]

/-- Without skeletons nothing grows. -/
theorem regrowAmong_nil (slots : Slots) (ts : List ProofTree) :
    regrowAmong slots ts [] = (ts, slots) := by
  cases ts <;> rfl

/-- What grows out of a node keeps its handle. -/
@[simp]
theorem id_regrow (slots : Slots) (node : Node) (s : Skeleton) :
    (regrow slots node s).1.id = node.id := by
  obtain ⟨comment, rule, children⟩ := s
  have hid := node.id_restored comment
  cases rule with
  | none =>
      rw [regrow_none]
      exact hid
  | some rule =>
      cases hexpand : rule.expand node.sequent with
      | none =>
          rw [regrow_refused hexpand]
          exact hid
      | some expanded =>
          rw [regrow_applied hexpand]
          exact hid

end ProofTree

namespace Bench

variable {allowed : Rule → Prop} {b b' : Bench} {tree : TreeId} {n : NodeId} {node : Node}

/-- The workbench with a grown subtree in place of a node. -/
def grow (b : Bench) (tree : TreeId) (n : NodeId) (grown : ProofTree × Slots) : Bench :=
  { b.put tree n grown.1 with slots := grown.2 }

/-- Growing again, at the same node or at one that was not there before. -/
theorem grow_grow {c : NodeId} {grown grown' : ProofTree × Slots}
    (hc : ∀ t, (tree, t) ∈ b.proofs → c ∈ t.ids → c = n) :
    (b.grow tree n grown).grow tree c grown' =
      b.grow tree n (grown.1.put c grown'.1, grown'.2) :=
  congrArg (fun b : Bench => { b with slots := grown'.2 }) (put_put hc)

/-- Growing a node again takes the place of what grew there first. -/
theorem grow_again (b : Bench) (grown grown' : ProofTree × Slots) (hid : grown.1.id = n) :
    (b.grow tree n grown).grow tree n grown' = b.grow tree n grown' := by
  rw [grow_grow fun _ _ _ => rfl, ProofTree.put_of_id hid]

/-- The children of a node that was open have handles of their own: each is
    located, and may grow in its place. -/
theorem Wf.grow_child {top : Node} {rule : Rule} {skipped : SkippedActions}
    {before after : List ProofTree} {c : ProofTree} {slots : Slots} (h : b.Wf allowed)
    (located : b.locate? n = some (tree, .openNode node)) (htop : top.id = n)
    (h' : b'.Wf allowed)
    (hgrow : b' = b.grow tree n
      ((ProofTree.applied top rule skipped (before ++ c :: after)).settled, slots)) :
    b'.locate? c.id = some (tree, c) ∧ ∀ grown, b'.grow tree c.id grown = b.grow tree n
      ((ProofTree.applied top rule skipped (before ++ grown.1 :: after)).settled, grown.2) := by
  obtain ⟨proof, hmem, hfind⟩ := mem_of_locate? located
  have hall := mem_all_of_mem hmem
  have hnode : node.id = n := ProofTree.id_of_find? hfind
  let q := (ProofTree.applied top rule skipped (before ++ c :: after)).settled
  have hmem' : (tree, proof.put n q) ∈ b'.proofs := hgrow ▸ mem_put hmem q
  have hall' := mem_all_of_mem hmem'
  have hfind' : (proof.put n q).find? n = some q :=
    ProofTree.find?_put (h.settled proof hall) (h.ids_nodup hall) hfind htop
  obtain ⟨others, hold, hnew⟩ :=
    ProofTree.ids_put (h.settled proof hall) (h.ids_nodup hall) hfind q
  have hids : (q.ids ++ others).Nodup := hnew.nodup_iff.mp (h'.ids_nodup hall')
  obtain ⟨hqids, -, hothers⟩ := List.nodup_append.mp hids
  have hc : c ∈ q.children := List.mem_append_right _ List.mem_cons_self
  have hbelow : c.id ∈ q.children.flatMap ProofTree.ids :=
    List.mem_flatMap.mpr ⟨c, hc, c.id_mem_ids⟩
  refine ⟨h'.locate?_eq hmem' (ProofTree.find?_trans (h'.ids_nodup hall') hfind'
    (ProofTree.find?_child hqids hc)), fun grown => ?_⟩
  have hfresh : c.id ∉ proof.ids := by
    rw [ProofTree.ids_eq, List.nodup_cons] at hqids
    intro hbad
    rcases List.mem_append.mp (hold.mem_iff.mp hbad) with hbad | hbad
    · have heq : c.id = q.id := (List.mem_singleton.mp hbad).trans (hnode.trans htop.symm)
      exact hqids.1 (heq ▸ hbelow)
    · refine hothers c.id ?_ c.id hbad rfl
      rw [ProofTree.ids_eq]
      exact List.mem_cons_of_mem _ hbelow
  have hsettled := ((h'.settled _ hall').find? hfind').child
  have hput : q.put c.id grown.1 =
      (ProofTree.applied top rule skipped (before ++ grown.1 :: after)).settled := by
    refine ProofTree.put_child ?_ ?_ ?_
    · rw [← ProofTree.ids_settled]
      exact hqids
    · exact fun d hd => hsettled d (List.mem_append_left _ hd)
    · exact fun d hd => hsettled d (List.mem_append_right _ (List.mem_cons_of_mem _ hd))
  rw [hgrow, grow_grow, hput]
  -- tree handles are unique, so this is the tree with the node
  intro u hu hbad
  rw [h.tree_unique hu hmem] at hbad
  exact absurd hbad hfresh

end Bench

namespace Forest

open ProofTree (regrow regrowAmong)

variable {allowed : Rule → Prop} {f : Forest} {t : Tree} {n : NodeId} {node : Node}

/-! ## One step -/

/-- A node on the workbench is a node of the forest. -/
theorem exists_locate? {tree : TreeId} {p : ProofTree} {loose : List ProofTree}
    (h : (f.bench loose).locate? n = some (tree, p)) :
    ∃ t, t.id = tree ∧ f.locate? n = some (t, p) := by
  rw [locate?_bench] at h
  obtain ⟨⟨t, p'⟩, located, heq⟩ := Option.map_eq_some_iff.mp h
  cases heq
  exact ⟨t, rfl, located⟩

/-- A node that is found is no error. -/
theorem nodeOrError_of_locate? {p : ProofTree} (located : f.locate? n = some (t, p)) :
    f.nodeOrError n = .ok p := by
  rw [nodeOrError, node?, located]
  rfl

/-- The node that is located has the handle it is located by. -/
theorem id_of_locate? {p : ProofTree} (located : f.locate? n = some (t, p)) : p.id = n := by
  obtain ⟨_, _, hfind⟩ := Bench.mem_of_locate? (locate?_bench_of located [])
  exact ProofTree.id_of_find? hfind

/-- A grown node is where the open node was. -/
theorem locate?_grow {f' : Forest} {grown : ProofTree × Slots} (h : (f.bench []).Wf allowed)
    (h' : (f'.bench []).Wf allowed) {p : ProofTree} (located : f.locate? n = some (t, p))
    (hgrown : f'.bench [] = (f.bench []).grow t.id n grown) (hid : grown.1.id = n) :
    ∃ t', t'.id = t.id ∧ f'.locate? n = some (t', grown.1) := by
  obtain ⟨proof, hmem, hfind⟩ := Bench.mem_of_locate? (locate?_bench_of located [])
  have hall := Bench.mem_all_of_mem hmem
  have hput := ProofTree.find?_put (h.settled proof hall) (h.ids_nodup hall) hfind hid
  refine exists_locate? (h'.locate?_eq ?_ hput)
  rw [hgrown]
  exact Bench.mem_put hmem grown.1

/-- The recorded comment goes on the node. -/
theorem restoreComment_grow (h : (f.bench []).Wf allowed)
    (located : f.locate? n = some (t, .openNode node)) (comment : String) :
    ∃ f', f.restoreComment n comment = (.ok (), f') ∧ (f'.bench []).Wf allowed ∧
      f'.bench [] = (f.bench []).grow t.id n
        ((ProofTree.openNode (node.restored comment)).settled, f.slots) := by
  have located' := locate?_bench_of located []
  -- a node that keeps its comment is at its level already
  have hkept : (f.bench []).grow t.id n ((ProofTree.openNode node).settled, f.slots) =
      f.bench [] := by
    rw [ProofTree.settled_eq (h.of_locate? located').1.top]
    show { (f.bench []).put t.id n (.openNode node) with slots := (f.bench []).slots } = _
    rw [h.put_self located']
  rw [restoreComment, Node.restored]
  by_cases hempty : comment = ""
  · rw [if_pos hempty, if_pos hempty, hkept]
    exact ⟨f, rfl, h, rfl⟩
  · rw [if_neg hempty, if_neg hempty]
    by_cases hsame : node.comment = comment
    · have hrun : f.setComment n comment = (.ok (), f) := by
        rw [setComment, located]
        exact if_pos hsame
      rw [hrun, ← hsame, hkept]
      exact ⟨f, rfl, h, rfl⟩
    · obtain ⟨hok, hbench⟩ := bench_setComment h located hsame
      exact ⟨(f.setComment n comment).2, Prod.ext hok rfl, h.moves (setComment_moves h n comment),
        hbench⟩

/-- A recorded rule that does not apply leaves the forest as it is. -/
theorem reuseRule_refused {rule : Rule} (located : f.locate? n = some (t, .openNode node))
    (hexpand : rule.expand node.sequent = none) : f.reuseRule n rule = (.ok false, f) := by
  have happly : f.applyRule n rule = (.error (.ruleNotApplicable n rule.display), f) := by
    have hopen : (ProofTree.openNode node).isOpen = true := rfl
    have hexpand' : rule.expand (ProofTree.openNode node).sequent = none := hexpand
    rw [applyRule, located]
    dsimp only
    rw [if_pos hopen, hexpand']
  rw [reuseRule, nodeOrError_of_locate? located]
  show f.tryRule n rule = _
  rw [tryRule, happly]

/-- A recorded rule that applies opens its children. -/
theorem reuseRule_grow {rule : Rule} {sequents : List Sequent} {skipped : SkippedActions}
    (h : (f.bench []).Wf allowed) (hrule : allowed rule)
    (located : f.locate? n = some (t, .openNode node))
    (hexpand : rule.expand node.sequent = some (sequents, skipped)) :
    ∃ f', f.reuseRule n rule = (.ok true, f') ∧ (f'.bench []).Wf allowed ∧
      f'.bench [] = (f.bench []).grow t.id n
        ((ProofTree.applied node rule skipped (f.slots.openNodes sequents).1).settled,
          (f.slots.openNodes sequents).2) := by
  obtain ⟨hok, hbench⟩ := bench_applyRule h located rfl hexpand
  have hrun : f.reuseRule n rule = (.ok true, (f.applyRule n rule).2) := by
    have happly : f.applyRule n rule = (.ok (), (f.applyRule n rule).2) := Prod.ext hok rfl
    rw [reuseRule, nodeOrError_of_locate? located]
    show f.tryRule n rule = _
    rw [tryRule, happly]
  exact ⟨_, hrun, h.moves (applyRule_moves h hrule n), hbench⟩

/-- The comment and then a rule that applies: the node has its children, all of
    them open. -/
theorem step_grow {rule : Rule} {sequents : List Sequent} {skipped : SkippedActions}
    (hf : (f.bench []).Wf allowed) (hrule : allowed rule)
    (located : f.locate? n = some (t, .openNode node)) (comment : String)
    (hexpand : rule.expand node.sequent = some (sequents, skipped)) :
    ∃ f' f'', f.restoreComment n comment = (.ok (), f') ∧ f'.reuseRule n rule = (.ok true, f'') ∧
      (f''.bench []).Wf allowed ∧ f''.slots = (f.slots.openNodes sequents).2 ∧
      f''.childIds n = (f.slots.openNodes sequents).1.map ProofTree.id ∧
      f''.bench [] = (f.bench []).grow t.id n
        ((ProofTree.applied (node.restored comment) rule skipped
          (f.slots.openNodes sequents).1).settled, f''.slots) := by
  have hid : (node.restored comment).id = n :=
    (node.id_restored comment).trans (id_of_locate? located)
  have hsequent := node.sequent_restored comment
  obtain ⟨f', hrun, hf', hcomment⟩ := restoreComment_grow hf located comment
  obtain ⟨t', htree, located'⟩ := locate?_grow hf hf' located hcomment hid
  obtain ⟨f'', hrun', hf'', hgrown⟩ := reuseRule_grow hf' hrule located'
    ((congrArg rule.expand hsequent).trans hexpand)
  have hslots : f'.slots = f.slots := congrArg Bench.slots hcomment
  -- the second growth is at the node of the first and takes its place
  rw [htree, hslots, hcomment] at hgrown
  replace hgrown := hgrown.trans ((f.bench []).grow_again _ _ hid)
  obtain ⟨t'', -, located''⟩ := locate?_grow hf hf'' located hgrown hid
  have hslots' : f''.slots = (f.slots.openNodes sequents).2 := congrArg Bench.slots hgrown
  refine ⟨f', f'', hrun, hrun', hf'', hslots', ?_, ?_⟩
  · rw [childIds, node?, located'']
    rfl
  · rw [hslots']
    exact hgrown

/-! ## Below a node -/

/-- What a replay of a skeleton at open nodes comes to. -/
def Regrows (allowed : Rule → Prop) (s : Skeleton) : Prop :=
  ∀ {f : Forest} {n : NodeId} {t : Tree} {node : Node}, (f.bench []).Wf allowed →
    f.locate? n = some (t, .openNode node) →
      (f.reuseNode n s).1 = .ok () ∧
        (f.reuseNode n s).2.bench [] = (f.bench []).grow t.id n (regrow f.slots node s)

/-- A replay goes on with the next sibling. -/
theorem reuseAmong_cons {s : Skeleton} {nodes : List NodeId} {more : List Skeleton}
    (h : (f.reuseNode n s).1 = .ok ()) :
    f.reuseAmong (n :: nodes) (s :: more) = (f.reuseNode n s).2.reuseAmong nodes more := by
  rw [reuseAmong]
  split
  · rename_i hrun
    rw [hrun] at h
    cases h
  · rename_i hrun
    rw [hrun]

/-- A child of a node that was open grows in its place.  `done` are the
    children that have grown before it, `rest` those that are open still. -/
theorem Regrows.child {b : Bench} {tree : TreeId} {top kid : Node} {rule : Rule}
    {skipped : SkippedActions} {s : Skeleton} {done rest : List ProofTree}
    (hgrows : Regrows allowed s) (hs : s.Every allowed) (h : b.Wf allowed)
    (located : b.locate? n = some (tree, .openNode node)) (htop : top.id = n)
    (hf : (f.bench []).Wf allowed)
    (hbench : f.bench [] = b.grow tree n
      ((ProofTree.applied top rule skipped (done ++ .openNode kid :: rest)).settled, f.slots)) :
    (∃ t, f.locate? kid.id = some (t, .openNode kid)) ∧
      ∃ f', f.reuseNode kid.id s = (.ok (), f') ∧ (f'.bench []).Wf allowed ∧
        f'.slots = (regrow f.slots kid s).2 ∧
        f'.bench [] = b.grow tree n
          ((ProofTree.applied top rule skipped
            (done ++ [(regrow f.slots kid s).1] ++ rest)).settled, f'.slots) := by
  obtain ⟨hlocate, hgrow⟩ := h.grow_child located htop hf hbench
  obtain ⟨t, hid, hlocate⟩ := exists_locate? hlocate
  -- the child is grown where it stands, which is one step of growing the node
  obtain ⟨hok, hstep⟩ := hgrows hf hlocate
  rw [hid] at hstep
  have hslots : (f.reuseNode kid.id s).2.slots = (regrow f.slots kid s).2 :=
    congrArg Bench.slots hstep
  refine ⟨⟨t, hlocate⟩, (f.reuseNode kid.id s).2, Prod.ext hok rfl,
    hf.moves (reuseNode_moves hf hs kid.id), hslots, ?_⟩
  rw [hslots, List.append_assoc, List.singleton_append]
  exact hstep.trans (hgrow _)

/-- The children of a node grow from the first to the last.  `done` are
    those that have grown, `todo` those that are open still. -/
theorem reuseAmong_grow {b : Bench} {tree : TreeId} {top : Node} {rule : Rule}
    {skipped : SkippedActions} {skeletons : List Skeleton}
    (hskeletons : ∀ s ∈ skeletons, s.Every allowed) (ih : ∀ s ∈ skeletons, Regrows allowed s)
    (h : b.Wf allowed) (located : b.locate? n = some (tree, .openNode node)) (htop : top.id = n)
    (done todo : List ProofTree) (hopen : ∀ c ∈ todo, c.isOpen = true)
    (hf : (f.bench []).Wf allowed)
    (hbench : f.bench [] = b.grow tree n
      ((ProofTree.applied top rule skipped (done ++ todo)).settled, f.slots)) :
    (f.reuseAmong (todo.map ProofTree.id) skeletons).1 = .ok () ∧
      (f.reuseAmong (todo.map ProofTree.id) skeletons).2.bench [] = b.grow tree n
        ((ProofTree.applied top rule skipped
            (done ++ (regrowAmong f.slots todo skeletons).1)).settled,
          (regrowAmong f.slots todo skeletons).2) := by
  induction skeletons generalizing f done todo with
  | nil => cases todo <;> exact ⟨rfl, hbench⟩
  | cons s more ihmore =>
      cases todo with
      | nil => exact ⟨rfl, hbench⟩
      | cons c rest =>
          have hc := hopen c List.mem_cons_self
          obtain ⟨kid, rfl⟩ : ∃ kid, c = .openNode kid := by
            cases c with
            | openNode kid => exact ⟨kid, rfl⟩
            | applied _ _ _ _ => cases hc
          -- the child has grown in its place, and joins those that are done
          obtain ⟨-, f', hrun, hf', hslots, hbench'⟩ := Regrows.child
            (ih s List.mem_cons_self) (hskeletons s List.mem_cons_self) h located htop hf hbench
          obtain ⟨hok', hrest⟩ := ihmore (fun s hs => hskeletons s (List.mem_cons_of_mem _ hs))
            (fun s hs => ih s (List.mem_cons_of_mem _ hs)) _ rest
            (fun c hc => hopen c (List.mem_cons_of_mem _ hc)) hf' hbench'
          have hcons : f.reuseAmong ((ProofTree.openNode kid :: rest).map ProofTree.id) (s :: more) =
              f'.reuseAmong (rest.map ProofTree.id) more := by
            have hok : (f.reuseNode kid.id s).1 = .ok () := by rw [hrun]
            refine (reuseAmong_cons hok).trans ?_
            rw [hrun]
          rw [hcons]
          refine ⟨hok', hrest.trans ?_⟩
          rw [hslots, List.append_assoc]
          rfl

/-- A replay at an open node grows the skeleton there, and never fails. -/
theorem regrows {s : Skeleton} (hs : s.Every allowed) : Regrows allowed s := by
  -- on the skeleton: comment, then rule, then the children one after the other
  induction hs with
  | @mk comment rule? children top below ih =>
      intro f n t node hf located
      have hid : (node.restored comment).id = n :=
        (node.id_restored comment).trans (id_of_locate? located)
      obtain ⟨f', hrun, hf', hcomment⟩ := restoreComment_grow hf located comment
      rw [reuseNode, hrun]
      cases rule? with
      | none =>
          rw [ProofTree.regrow_none]
          exact ⟨rfl, hcomment⟩
      | some rule =>
          cases hexpand : rule.expand node.sequent with
          -- a rule that does not apply leaves the node open, with its comment
          | none =>
              obtain ⟨t', -, located'⟩ := locate?_grow hf hf' located hcomment hid
              have hrefused : f'.reuseRule n rule = (.ok false, f') :=
                reuseRule_refused located'
                  ((congrArg rule.expand (node.sequent_restored comment)).trans hexpand)
              rw [ProofTree.regrow_refused hexpand]
              dsimp only
              rw [hrefused]
              exact ⟨rfl, hcomment⟩
          | some expanded =>
              obtain ⟨sequents, skipped⟩ := expanded
              obtain ⟨f₁, f'', hrun₁, hrun', hf'', hslots, hkids, hrule⟩ :=
                step_grow hf (top rule rfl) located comment hexpand
              cases hrun.symm.trans hrun₁
              rw [ProofTree.regrow_applied hexpand]
              dsimp only
              rw [hrun']
              dsimp only
              rw [hkids, ← hslots]
              refine reuseAmong_grow below ih hf (locate?_bench_of located []) hid [] _ ?_ hf''
                hrule
              -- the children of a rule that was just applied are open
              intro c hc
              obtain ⟨id, sequent, -, rfl⟩ := f.slots.openNodes_eq sequents c hc
              rfl

/-- A replay answers whether what it grew is closed. -/
theorem reuse_grow {s : Skeleton} (hs : s.Every allowed) (h : (f.bench []).Wf allowed)
    (located : f.locate? n = some (t, .openNode node)) :
    (f.reuse n s).1 = .ok (regrow f.slots node s).1.confidence.isClosed ∧
      (f.reuse n s).2.bench [] = (f.bench []).grow t.id n (regrow f.slots node s) := by
  have hn : node.id = n := id_of_locate? located
  have hbatch := bench_beginBatch f t.id []
  have h' : ((f.beginBatch t.id).bench []).Wf allowed := hbatch ▸ h
  obtain ⟨t', hid, located'⟩ : ∃ t', t'.id = t.id ∧
      (f.beginBatch t.id).locate? n = some (t', .openNode node) :=
    exists_locate? (hbatch ▸ locate?_bench_of located [])
  obtain ⟨hok, hgrow⟩ := regrows hs h' located'
  have hmoves := h'.moves (reuseNode_moves h' hs n)
  -- the batch hides nothing: the node is found in it, before and after
  obtain ⟨t'', -, located''⟩ := locate?_grow h' hmoves located' hgrow
    ((ProofTree.id_regrow _ node s).trans hn)
  rw [hid, hbatch] at hgrow
  have htree : f.treeOf n = .ok t.id := by
    rw [treeOf, located]
  have hpair : (f.beginBatch t.id).reuseNode n s =
      (.ok (), ((f.beginBatch t.id).reuseNode n s).2) := Prod.ext hok rfl
  have hrun : f.reuse n s = (.ok (regrow f.slots node s).1.confidence.isClosed,
      ((f.beginBatch t.id).reuseNode n s).2.endBatch t.id) := by
    rw [reuse, htree]
    dsimp only
    rw [inBatch, hpair]
    dsimp only
    rw [nodeClosed, node?, located'']
    rfl
  rw [hrun]
  exact ⟨rfl, (bench_endBatch t.id).trans hgrow⟩

/-! ## On a tree of its own -/

/-- A new tree comes last. -/
theorem createTree_proofs (f : Forest) (s : Sequent) (origin : Option String) :
    ((f.createTree s origin).2.bench []).proofs = (f.bench []).proofs ++
      [((f.createTree s origin).1, .openNode { id := f.slots.alloc.1, sequent := s })] := by
  show List.map _ (f.trees ++ [_]) = _
  rw [List.map_append]
  rfl

/-- A tree of the workbench is a tree of the forest. -/
theorem exists_tree? {tree : TreeId} {p : ProofTree} (h : (f.bench []).Wf allowed)
    (hmem : (tree, p) ∈ (f.bench []).proofs) : ∃ t, f.tree? tree = some t ∧ t.proof = p := by
  obtain ⟨t, ht, heq⟩ := List.mem_map.mp hmem
  cases heq
  have hsome : (f.tree? t.id).isSome = true :=
    List.find?_isSome.mpr ⟨t, ht, decide_eq_true rfl⟩
  obtain ⟨t', ht'⟩ := Option.isSome_iff_exists.mp hsome
  obtain ⟨-, hmem'⟩ := mem_bench_of_tree? ht' []
  exact ⟨t', ht', h.tree_unique hmem' hmem⟩

/-- What a tree depends on is what its proof depends on. -/
theorem proofDependencies_of_tree? {tree : TreeId} (h : f.tree? tree = some t) :
    f.proofDependencies tree = .ok t.proof.dependencies := by
  rw [proofDependencies, treeOrError, h]
  rfl

/-- A skeleton replayed on a new tree: what grows out of the root becomes the
    new tree, and the other trees stay. -/
theorem reuse_createTree_proofs {s : Sequent} {skeleton : Skeleton} (h : (f.bench []).Wf allowed)
    (hs : s.WellTyped) (hskeleton : skeleton.Every allowed) (origin : Option String) :
    ∃ root slots, (f.createTree s origin).2.root (f.createTree s origin).1 = .ok root ∧
      let grown := (regrow slots { id := root, sequent := s } skeleton).1
      let replayed := (f.createTree s origin).2.reuse root skeleton
      replayed.1 = .ok grown.confidence.isClosed ∧ (replayed.2.bench []).Wf allowed ∧
      (replayed.2.bench []).proofs =
        (f.bench []).proofs ++ [((f.createTree s origin).1, grown)] := by
  have h' := h.moves (createTree_moves hs origin)
  have hproofs := f.createTree_proofs s origin
  have hothers : ∀ u ∈ (f.bench []).proofs, u.1 ≠ (f.createTree s origin).1 :=
    fun u hu heq => Nat.ne_of_lt (h.tree_lt u hu) (congrArg TreeId.number heq)
  generalize f.createTree s origin = created at h' hproofs hothers ⊢
  let node : Node := { id := f.slots.alloc.1, sequent := s }
  have hmem : (created.1, ProofTree.openNode node) ∈ (created.2.bench []).proofs := by
    rw [hproofs]
    exact List.mem_append_right _ (List.mem_singleton.mpr rfl)
  obtain ⟨t, hid, located⟩ := exists_locate? (h'.locate?_eq hmem (n := node.id) (if_pos rfl))
  obtain ⟨hclosed, hgrow⟩ := reuse_grow hskeleton h' located
  obtain ⟨tree, htree, hproof⟩ := exists_tree? h' hmem
  refine ⟨node.id, created.2.slots, ?_, hclosed, h'.moves (reuse_moves h' hskeleton node.id), ?_⟩
  · rw [Forest.root, treeOrError, htree]
    exact congrArg (fun p => Except.ok (ProofTree.id p)) hproof
  · -- the open root was the whole of the new tree, and no other tree has its handle
    have hput : (ProofTree.openNode node).put node.id (regrow created.2.slots node skeleton).1 =
        (regrow created.2.slots node skeleton).1 := ProofTree.put_of_id rfl
    rw [hgrow, hid]
    show List.map _ (created.2.bench []).proofs = _
    rw [hproofs, List.map_append, Bench.map_put_of_ne hothers, List.map_singleton, if_pos rfl, hput]

/-- A skeleton that is reused on a new tree grows there from the root. -/
theorem reuse_createTree {s : Sequent} {skeleton : Skeleton} (h : (f.bench []).Wf allowed)
    (hs : s.WellTyped) (hskeleton : skeleton.Every allowed) (origin : Option String) :
    ∃ root slots, (f.createTree s origin).2.root (f.createTree s origin).1 = .ok root ∧
      let grown := (regrow slots { id := root, sequent := s } skeleton).1
      let replayed := (f.createTree s origin).2.reuse root skeleton
      replayed.1 = .ok grown.confidence.isClosed ∧
      replayed.2.skeleton root = .ok grown.skeleton ∧
      replayed.2.proofDependencies (f.createTree s origin).1 = .ok grown.dependencies := by
  obtain ⟨root, slots, hroot, hclosed, h', hproofs⟩ :=
    reuse_createTree_proofs h hs hskeleton origin
  refine ⟨root, slots, hroot, hclosed, ?_, ?_⟩
  -- both answers are read off the tree that was created last
  all_goals
    have hmem := hproofs ▸ List.mem_append_right _ (List.mem_singleton.mpr rfl)
  · have hfind := ProofTree.find?_id (regrow slots { id := root, sequent := s } skeleton).1
    rw [ProofTree.id_regrow] at hfind
    obtain ⟨t, -, located⟩ := exists_locate? (h'.locate?_eq hmem hfind)
    rw [Forest.skeleton, nodeOrError_of_locate? located]
    rfl
  · obtain ⟨t, htree, hgrown⟩ := exists_tree? h' hmem
    rw [proofDependencies_of_tree? htree, hgrown]

end Forest

end SequentProver
