import Mathlib.Logic.Relation
import SequentProver.Forest.Edit
import SequentProver.Proofs.Growth
import SequentProver.Proofs.SlotAccount
import SequentProver.Proofs.TreeEdit

/-! # The workbench

    Every operation on a forest is made of a few moves: nodes are opened,
    copied and discarded, subtrees are taken off a node, put under a node,
    planted and uprooted, comments are written.  Between two moves a subtree
    may be in no tree at all; it then lies loose on the workbench.

    A workbench is in order when the slots are accounted for, every level is
    right and every node with a rule has the children that the rule gives.
    Every move keeps that. -/

namespace SequentProver

/-! ## Nodes that follow from their rules -/

/-- Every sequent is the same as itself. -/
theorem Sequent.sameAs_refl (s : Sequent) : s.sameAs s = true := by
  simp only [sameAs, decide_true, Bool.and_self]

/-- Two sequents that are the same as a third are the same. -/
theorem Sequent.sameAs_trans {s t u : Sequent} (hs : s.sameAs t = true)
    (hu : u.sameAs t = true) : s.sameAs u = true := by
  simp only [sameAs, Bool.and_eq_true, decide_eq_true_eq] at hs hu ⊢
  obtain ⟨⟨hgoal, henv⟩, hhyps⟩ := hs
  obtain ⟨⟨hgoal', henv'⟩, hhyps'⟩ := hu
  exact ⟨⟨hgoal.trans hgoal'.symm, henv.trans henv'.symm⟩, hhyps.trans hhyps'.symm⟩

/-- The sequent at the top is well typed, and if there is a rule it is an
    allowed one that gives the children.  The rule may have been applied to
    another sequent that is the same as this one. -/
structure ProofTree.Justified (allowed : Rule → Prop) (t : ProofTree) : Prop where
  wellTyped : t.sequent.WellTyped
  step : ∀ rule, t.rule? = some rule → allowed rule ∧
    ∃ s, s.sameAs t.sequent = true ∧
      rule.expand s = some (t.children.map ProofTree.sequent, t.skipped)

namespace ProofTree

variable {allowed : Rule → Prop} {t p : ProofTree} {n : NodeId}

/-- An open node is justified by its sequent. -/
theorem justified_openNode {node : Node} (h : node.sequent.WellTyped) :
    (ProofTree.openNode node).Justified allowed :=
  ⟨h, fun _ hrule => nomatch hrule⟩

/-- A node that is justified stays so whatever becomes of its handle, its
    comment and its level, and of what is below its children. -/
theorem Justified.congr (h : t.Justified allowed) (hsequent : p.sequent = t.sequent)
    (hrule : p.rule? = t.rule?) (hskipped : p.skipped = t.skipped)
    (hsequents : p.children.map sequent = t.children.map sequent) : p.Justified allowed := by
  refine ⟨?_, fun rule hr => ?_⟩
  · rw [hsequent]
    exact h.wellTyped
  · rw [hsequent, hsequents, hskipped]
    exact h.step rule (hrule ▸ hr)

/-- Levels do not matter for what is justified. -/
theorem Justified.settled (h : t.Justified allowed) : t.settled.Justified allowed :=
  h.congr (sequent_settled t) (rule?_mapNode _ t) (skipped_mapNode _ t) (by rw [children_settled])

end ProofTree

/-! ## Workbenches -/

/-- A forest at work, as far as its proofs go. -/
structure Bench where
  slots : Slots
  /-- The trees, each with its handle. -/
  proofs : List (TreeId × ProofTree)
  nextTree : Nat
  /-- The subtrees that are in no tree. -/
  loose : List ProofTree

/-- A forest as a workbench.  What is recorded for listeners is left out. -/
def Forest.bench (f : Forest) (loose : List ProofTree) : Bench :=
  ⟨f.slots, f.trees.map fun t => (t.id, t.proof), f.nextTree, loose⟩

namespace Bench

/-- All subtrees, in trees or loose. -/
def all (b : Bench) : List ProofTree := b.proofs.map Prod.snd ++ b.loose

/-- A node's tree and the subtree at the node. -/
def locate? (b : Bench) (n : NodeId) : Option (TreeId × ProofTree) :=
  b.proofs.findSome? fun t => (t.2.find? n).map fun p => (t.1, p)

/-- Put a subtree in place in one of the trees. -/
def put (b : Bench) (tree : TreeId) (n : NodeId) (q : ProofTree) : Bench :=
  { b with proofs := b.proofs.map fun t => if t.1 = tree then (t.1, t.2.put n q) else t }

/-- The workbench is in order. -/
structure Wf (allowed : Rule → Prop) (b : Bench) : Prop where
  tree_nodup : (b.proofs.map Prod.fst).Nodup
  tree_lt : ∀ t ∈ b.proofs, t.1.number < b.nextTree
  held : b.slots.Holds (b.all.flatMap ProofTree.ids)
  settled : ∀ p ∈ b.all, p.Settled
  justified : ∀ p ∈ b.all, p.Everywhere (ProofTree.Justified allowed)

variable {allowed : Rule → Prop} {b : Bench} {tree : TreeId} {n : NodeId} {p q t : ProofTree}

/-- The empty workbench is in order. -/
theorem wf_empty : (Forest.empty.bench []).Wf allowed where
  tree_nodup := List.nodup_nil
  tree_lt _ h := nomatch h
  held := Slots.holds_empty
  settled _ h := nomatch h
  justified _ h := nomatch h

/-- The order does not depend on how the subtrees are arranged. -/
theorem Wf.rearrange (h : b.Wf allowed) {slots : Slots} {proofs : List (TreeId × ProofTree)}
    {nextTree : Nat} {loose : List ProofTree}
    (hnodup : (proofs.map Prod.fst).Nodup) (hlt : ∀ t ∈ proofs, t.1.number < nextTree)
    (hslots : slots = b.slots) (hperm : (proofs.map Prod.snd ++ loose).Perm b.all) :
    Wf allowed ⟨slots, proofs, nextTree, loose⟩ where
  tree_nodup := hnodup
  tree_lt := hlt
  held := hslots ▸ h.held.perm (hperm.symm.flatMap_right ProofTree.ids)
  settled p hp := h.settled p (hperm.mem_iff.mp hp)
  justified p hp := h.justified p (hperm.mem_iff.mp hp)

/-! ## Locating a node -/

theorem mem_of_locate? (h : b.locate? n = some (tree, p)) :
    ∃ t, (tree, t) ∈ b.proofs ∧ t.find? n = some p := by
  obtain ⟨⟨tree', t⟩, hmem, hfound⟩ := List.exists_of_findSome?_eq_some h
  obtain ⟨p', hp', heq⟩ := Option.map_eq_some_iff.mp hfound
  cases heq
  exact ⟨t, hmem, hp'⟩

theorem mem_all_of_mem (h : (tree, t) ∈ b.proofs) : t ∈ b.all :=
  List.mem_append_left _ (List.mem_map.mpr ⟨_, h, rfl⟩)

/-- No handle is twice in a subtree. -/
theorem Wf.ids_nodup (h : b.Wf allowed) (ht : t ∈ b.all) : t.ids.Nodup :=
  (List.nodup_flatMap.mp h.held.nodup).1 t ht

/-- A handle has one tree. -/
theorem Wf.tree_unique {u : ProofTree} (h : b.Wf allowed) (ht : (tree, t) ∈ b.proofs)
    (hu : (tree, u) ∈ b.proofs) : t = u :=
  congrArg Prod.snd (List.inj_on_of_nodup_map h.tree_nodup ht hu rfl)

/-- In order, the trees around a given one. -/
theorem Wf.split (h : b.Wf allowed) (hmem : (tree, t) ∈ b.proofs) :
    ∃ before after, b.proofs = before ++ (tree, t) :: after ∧
      (∀ u ∈ before ++ after, u.1 ≠ tree) ∧
      (∀ u ∈ before ++ after, ∀ n ∈ t.ids, n ∉ u.2.ids) := by
  obtain ⟨before, after, hsplit⟩ := List.append_of_mem hmem
  refine ⟨before, after, hsplit, ?_, ?_⟩
  · have hnodup := h.tree_nodup
    rw [hsplit, List.map_append, List.map_cons] at hnodup
    have hnot := (List.nodup_middle.mp hnodup)
    rw [List.nodup_cons, ← List.map_append] at hnot
    exact fun u hu heq => hnot.1 (List.mem_map.mpr ⟨u, hu, heq⟩)
  -- all handles are told apart, so those of one tree are in no other
  · have hnodup := h.held.nodup
    have hperm : b.all.Perm (t :: (((before ++ after).map Prod.snd) ++ b.loose)) := by
      rw [all, hsplit, List.map_append, List.map_append, List.map_cons, List.append_assoc,
        List.append_assoc]
      exact List.perm_middle
    rw [(hperm.flatMap_right ProofTree.ids).nodup_iff, List.flatMap_cons,
      List.nodup_append] at hnodup
    intro u hu n hn hmem'
    refine hnodup.2.2 n hn n (List.mem_flatMap.mpr ⟨u.2, ?_, hmem'⟩) rfl
    exact List.mem_append_left _ (List.mem_map.mpr ⟨u, hu, rfl⟩)

/-- A node that is found in a tree is located there. -/
theorem Wf.locate?_eq (h : b.Wf allowed) (hmem : (tree, t) ∈ b.proofs)
    (hfind : t.find? n = some p) : b.locate? n = some (tree, p) := by
  obtain ⟨before, after, hsplit, -, hdisjoint⟩ := h.split hmem
  rw [locate?, hsplit, List.findSome?_append]
  have hnone : before.findSome? (fun t => (t.2.find? n).map fun p => (t.1, p)) = none := by
    rw [List.findSome?_eq_none_iff]
    intro u hu
    rw [Option.map_eq_none_iff, ProofTree.find?_eq_none]
    exact hdisjoint u (List.mem_append_left _ hu) n (ProofTree.mem_ids_of_find? hfind)
  rw [hnone, List.findSome?_cons, hfind]
  rfl

/-- Putting a subtree in place leaves trees with other handles alone. -/
theorem map_put_of_ne {part : List (TreeId × ProofTree)} (hpart : ∀ u ∈ part, u.1 ≠ tree) :
    part.map (fun t => if t.1 = tree then (t.1, t.2.put n q) else t) = part :=
  (List.map_congr_left fun u hu => if_neg (hpart u hu)).trans (List.map_id' part)

/-- Putting a subtree in place changes one tree. -/
theorem Wf.put_eq (h : b.Wf allowed) (hmem : (tree, t) ∈ b.proofs) (q : ProofTree) :
    ∃ before after, b.proofs = before ++ (tree, t) :: after ∧
      (b.put tree n q).proofs = before ++ (tree, t.put n q) :: after := by
  obtain ⟨before, after, hsplit, hne, -⟩ := h.split hmem
  refine ⟨before, after, hsplit, ?_⟩
  rw [Bench.put, hsplit, List.map_append, List.map_cons, if_pos rfl,
    map_put_of_ne fun u hu => hne u (List.mem_append_left _ hu),
    map_put_of_ne fun u hu => hne u (List.mem_append_right _ hu)]

/-- The tree with a subtree put in place. -/
theorem mem_put (hmem : (tree, t) ∈ b.proofs) (q : ProofTree) :
    (tree, t.put n q) ∈ (b.put tree n q).proofs :=
  List.mem_map.mpr ⟨(tree, t), hmem, if_pos rfl⟩

theorem mem_put_of_ne {other : TreeId} (hmem : (other, t) ∈ b.proofs) (hne : other ≠ tree)
    (q : ProofTree) : (other, t) ∈ (b.put tree n q).proofs :=
  List.mem_map.mpr ⟨(other, t), hmem, if_neg hne⟩

/-- Putting back what is there changes nothing. -/
theorem Wf.put_self (h : b.Wf allowed) (located : b.locate? n = some (tree, p)) :
    b.put tree n p = b := by
  obtain ⟨t, hmem, hfind⟩ := mem_of_locate? located
  obtain ⟨before, after, hold, hnew⟩ := h.put_eq (n := n) hmem p
  have ht := mem_all_of_mem hmem
  rw [ProofTree.put_self (h.settled t ht) (h.ids_nodup ht) hfind, ← hold] at hnew
  show { b with proofs := (b.put tree n p).proofs } = b
  rw [hnew]

/-- Two replacements in one tree, the second inside the first. -/
theorem put_put {c : NodeId} {r : ProofTree}
    (hc : ∀ t, (tree, t) ∈ b.proofs → c ∈ t.ids → c = n) :
    (b.put tree n q).put tree c r = b.put tree n (q.put c r) := by
  have hproofs : ((b.put tree n q).put tree c r).proofs = (b.put tree n (q.put c r)).proofs := by
    show (List.map _ b.proofs).map _ = _
    rw [List.map_map]
    refine List.map_congr_left fun ⟨id, t⟩ hmem => ?_
    by_cases hid : id = tree
    · subst hid
      simp only [Function.comp_apply, if_true, ProofTree.put_put (hc t hmem)]
    · simp only [Function.comp_apply, if_neg hid]
  show { b with proofs := ((b.put tree n q).put tree c r).proofs } = _
  rw [hproofs]
  rfl

/-! ## Moves -/

/-- One move.  Rules come in with `attaching` only, and have to be
    allowed. -/
inductive Move (allowed : Rule → Prop) : Bench → Bench → Prop
  /-- Open a node on each of the sequents. -/
  | opening (b : Bench) (sequents : List Sequent) (wellTyped : ∀ s ∈ sequents, s.WellTyped) :
      Move allowed b { b with
        slots := (b.slots.openNodes sequents).2
        loose := (b.slots.openNodes sequents).1 ++ b.loose }
  /-- Copy a subtree. -/
  | copying (b : Bench) {n : NodeId} {tree : TreeId} {p : ProofTree}
      (located : b.locate? n = some (tree, p)) :
      Move allowed b { b with
        slots := (b.slots.copy p).2, loose := (b.slots.copy p).1 :: b.loose }
  /-- Make a loose subtree a tree. -/
  | planting (b : Bench) {p : ProofTree} {rest : List ProofTree} (loose : b.loose = p :: rest) :
      Move allowed b { b with
        proofs := b.proofs ++ [(⟨b.nextTree⟩, p)], nextTree := b.nextTree + 1, loose := rest }
  /-- Take a tree out of the forest. -/
  | uprooting (b : Bench) {tree : TreeId} {t : ProofTree} (mem : (tree, t) ∈ b.proofs) :
      Move allowed b { b with
        proofs := b.proofs.filter fun u => u.1 ≠ tree, loose := t :: b.loose }
  /-- Give back the slots of a loose subtree. -/
  | discarding (b : Bench) {p : ProofTree} {rest : List ProofTree} (loose : b.loose = p :: rest) :
      Move allowed b { b with slots := b.slots.releaseAll p.idsUpward, loose := rest }
  /-- Write a comment on a node. -/
  | commenting (b : Bench) {n : NodeId} {tree : TreeId} {p : ProofTree} (comment : String)
      (located : b.locate? n = some (tree, p)) :
      Move allowed b
        (b.put tree n (p.mapNode fun node => { node with comment := comment }).settled)
  /-- Take the rule off a node. -/
  | detaching (b : Bench) {n : NodeId} {tree : TreeId} {p : ProofTree}
      (located : b.locate? n = some (tree, p)) :
      Move allowed b { b.put tree n p.withoutRule.settled with loose := p.children ++ b.loose }
  /-- Apply a rule to an open node, with loose subtrees as the children. -/
  | attaching (b : Bench) {n : NodeId} {tree : TreeId} {p : ProofTree} {rule : Rule}
      {skipped : SkippedActions} {children rest : List ProofTree} {s : Sequent}
      (located : b.locate? n = some (tree, p)) (isOpen : p.isOpen = true)
      (loose : b.loose = children ++ rest) (ok : allowed rule) (same : s.sameAs p.sequent = true)
      (expand : rule.expand s = some (children.map ProofTree.sequent, skipped)) :
      Move allowed b { b.put tree n (ProofTree.applied p.node rule skipped children).settled with
        loose := rest }

/-- Several moves. -/
abbrev Moves (allowed : Rule → Prop) : Bench → Bench → Prop :=
  Relation.ReflTransGen (Move allowed)

/-! ## Moves keep the order -/

/-- What holds of all subtrees holds of them after a replacement, if it
    holds of the changed tree and of what lies loose now. -/
theorem Wf.forall_put (h : b.Wf allowed) {loose : List ProofTree} (hmem : (tree, t) ∈ b.proofs)
    {P : ProofTree → Prop} (hall : ∀ r ∈ b.all, P r) (hput : P (t.put n q))
    (hloose : ∀ r ∈ loose, P r) :
    ∀ r ∈ Bench.all { b.put tree n q with loose := loose }, P r := by
  obtain ⟨before, after, hold, hnew⟩ := h.put_eq (n := n) hmem q
  -- in `before` and `after` are old trees, in between is the new one
  have hkept : ∀ u ∈ before ++ after, P u.2 := by
    intro u hu
    refine hall u.2 (List.mem_append_left _ (List.mem_map.mpr ⟨u, ?_, rfl⟩))
    rw [hold]
    rcases List.mem_append.mp hu with hu | hu
    · exact List.mem_append_left _ hu
    · exact List.mem_append_right _ (List.mem_cons_of_mem _ hu)
  intro r hr
  rcases List.mem_append.mp hr with hr | hr
  · obtain ⟨u, hu, rfl⟩ := List.mem_map.mp hr
    replace hu : u ∈ (b.put tree n q).proofs := hu
    rw [hnew] at hu
    rcases List.mem_append.mp hu with hu | hu
    · exact hkept u (List.mem_append_left _ hu)
    · rcases List.mem_cons.mp hu with rfl | hu
      · exact hput
      · exact hkept u (List.mem_append_right _ hu)
  · exact hloose r hr

/-- Handles move between a node and what lies loose. -/
theorem Wf.swap (h : b.Wf allowed) {loose : List ProofTree}
    (located : b.locate? n = some (tree, p)) (hsequent : q.sequent = p.sequent)
    (hq : q.Settled ∧ q.Everywhere (ProofTree.Justified allowed))
    (hloose : ∀ r ∈ loose, r.Settled ∧ r.Everywhere (ProofTree.Justified allowed))
    (hids : (q.ids ++ loose.flatMap ProofTree.ids).Perm
      (p.ids ++ b.loose.flatMap ProofTree.ids)) :
    Wf allowed { b.put tree n q with loose := loose } := by
  obtain ⟨t, hmem, hfind⟩ := mem_of_locate? located
  have ht := mem_all_of_mem hmem
  obtain ⟨before, after, hold, hnew⟩ := h.put_eq (n := n) hmem q
  have htrees : (b.put tree n q).proofs.map Prod.fst = b.proofs.map Prod.fst := by
    rw [hold, hnew, List.map_append, List.map_append, List.map_cons, List.map_cons]
  refine ⟨?_, ?_, ?_, ?_, ?_⟩
  · show ((b.put tree n q).proofs.map Prod.fst).Nodup
    rw [htrees]
    exact h.tree_nodup
  · intro u hu
    have hmem' : u.1 ∈ (b.put tree n q).proofs.map Prod.fst := List.mem_map.mpr ⟨u, hu, rfl⟩
    rw [htrees] at hmem'
    obtain ⟨v, hv, hid⟩ := List.mem_map.mp hmem'
    rw [← hid]
    exact h.tree_lt v hv
  · -- counted handle by handle, the node gives to what is loose what it loses
    obtain ⟨rest, hpids, hqids⟩ :=
      ProofTree.ids_put (h.settled t ht) (h.ids_nodup ht) hfind q
    refine h.held.perm ?_
    rw [all, all, hnew, hold]
    simp only [List.map_append, List.map_cons, List.flatMap_append, List.flatMap_cons]
    rw [List.perm_iff_count] at hids hpids hqids ⊢
    intro a
    have h₁ := hids a
    have h₂ := hpids a
    have h₃ := hqids a
    simp only [List.count_append] at h₁ h₂ h₃ ⊢
    omega
  · refine h.forall_put hmem h.settled ?_ fun r hr => (hloose r hr).1
    exact ProofTree.Settled.put (h.settled t ht) (h.ids_nodup ht) hfind hsequent hq.1
  · refine h.forall_put hmem h.justified ?_ fun r hr => (hloose r hr).2
    refine ProofTree.Everywhere.put (h.settled t ht) (h.ids_nodup ht) hfind ?_ hsequent hq.2
      (h.justified t ht)
    intro node rule skipped before c c' after hc hjust
    refine ProofTree.Justified.settled (hjust.congr rfl rfl rfl ?_)
    show (before ++ c' :: after).map _ = (before ++ c :: after).map _
    rw [List.map_append, List.map_append, List.map_cons, List.map_cons, hc]

/-- The subtree at a node is as good as the whole tree. -/
theorem Wf.of_locate? (h : b.Wf allowed) (located : b.locate? n = some (tree, p)) :
    p.Settled ∧ p.Everywhere (ProofTree.Justified allowed) := by
  obtain ⟨t, hmem, hfind⟩ := mem_of_locate? located
  have ht := mem_all_of_mem hmem
  exact ⟨(h.settled t ht).find? hfind, (h.justified t ht).find? hfind⟩

/-- More subtrees on the workbench, under handles that were not in use. -/
theorem Wf.addLoose (h : b.Wf allowed) {slots : Slots} (new : List ProofTree)
    (hheld : slots.Holds (new.flatMap ProofTree.ids ++ b.all.flatMap ProofTree.ids))
    (hnew : ∀ r ∈ new, r.Settled ∧ r.Everywhere (ProofTree.Justified allowed)) :
    Wf allowed { b with slots := slots, loose := new ++ b.loose } := by
  -- where the new subtrees stand among the loose ones makes no difference
  have hperm : Bench.all { b with slots := slots, loose := new ++ b.loose } |>.Perm
      (new ++ b.all) := by
    show (b.proofs.map Prod.snd ++ (new ++ b.loose)).Perm
      (new ++ (b.proofs.map Prod.snd ++ b.loose))
    rw [← List.append_assoc, ← List.append_assoc]
    exact List.perm_append_comm.append_right _
  refine ⟨h.tree_nodup, h.tree_lt, ?_, ?_, ?_⟩
  · refine hheld.perm ?_
    rw [← List.flatMap_append]
    exact (hperm.flatMap_right ProofTree.ids).symm
  · intro r hr
    rcases List.mem_append.mp (hperm.mem_iff.mp hr) with hr | hr
    · exact (hnew r hr).1
    · exact h.settled r hr
  · intro r hr
    rcases List.mem_append.mp (hperm.mem_iff.mp hr) with hr | hr
    · exact (hnew r hr).2
    · exact h.justified r hr

/-- What lies loose is as good as what stands in trees. -/
theorem Wf.of_mem_loose (h : b.Wf allowed) (hp : p ∈ b.loose) :
    p.Settled ∧ p.Everywhere (ProofTree.Justified allowed) :=
  ⟨h.settled p (List.mem_append_right _ hp), h.justified p (List.mem_append_right _ hp)⟩

/-- Opening nodes keeps the order. -/
theorem Wf.opening (h : b.Wf allowed) {sequents : List Sequent}
    (wellTyped : ∀ s ∈ sequents, s.WellTyped) :
    Wf allowed { b with
      slots := (b.slots.openNodes sequents).2
      loose := (b.slots.openNodes sequents).1 ++ b.loose } := by
  refine h.addLoose _ (h.held.openNodes sequents) fun r hr => ?_
  obtain ⟨id, s, hs, rfl⟩ := Slots.openNodes_eq b.slots sequents r hr
  exact ⟨.of_open rfl, .of_open (ProofTree.justified_openNode (wellTyped s hs))⟩

theorem Wf.copying (h : b.Wf allowed) (located : b.locate? n = some (tree, p)) :
    Wf allowed { b with slots := (b.slots.copy p).2, loose := (b.slots.copy p).1 :: b.loose } := by
  obtain ⟨hsettled, hjust⟩ := h.of_locate? located
  refine h.addLoose [(b.slots.copy p).1] ?_ fun r hr => ?_
  · rw [List.flatMap_singleton]
    exact h.held.copy p
  · rw [List.mem_singleton] at hr
    subst hr
    constructor
    · refine (Slots.everywhere_copy ?_ ?_ b.slots hsettled).1
      · exact fun _ _ hlevel => hlevel
      · intro node id rule skipped children children' _ hconfidences hlevel
        rw [ProofTree.level_applied] at hlevel ⊢
        rw [hconfidences]
        exact hlevel
    · refine (Slots.everywhere_copy ?_ ?_ b.slots hjust).1
      · exact fun _ _ hopen => ProofTree.justified_openNode hopen.wellTyped
      · exact fun _ _ _ _ _ _ hsequents _ hnode => hnode.congr rfl rfl rfl hsequents

theorem Wf.planting (h : b.Wf allowed) {rest : List ProofTree} (loose : b.loose = p :: rest) :
    Wf allowed { b with
      proofs := b.proofs ++ [(⟨b.nextTree⟩, p)], nextTree := b.nextTree + 1, loose := rest } := by
  refine h.rearrange ?_ ?_ rfl ?_
  · rw [List.map_append, List.nodup_append]
    refine ⟨h.tree_nodup, List.nodup_singleton _, ?_⟩
    -- the new number is above all that were given out
    rintro tree hold tree' hnew rfl
    obtain ⟨u, hu, rfl⟩ := List.mem_map.mp hold
    rw [List.map_singleton, List.mem_singleton] at hnew
    have hlt := h.tree_lt u hu
    rw [hnew] at hlt
    exact Nat.lt_irrefl _ hlt
  · intro u hu
    rcases List.mem_append.mp hu with hu | hu
    · exact Nat.lt_succ_of_lt (h.tree_lt u hu)
    · rw [List.mem_singleton] at hu
      subst hu
      exact Nat.lt_succ_self _
  · rw [all, loose, List.map_append, List.append_assoc]
    exact .refl _

theorem Wf.uprooting (h : b.Wf allowed) (mem : (tree, t) ∈ b.proofs) :
    Wf allowed { b with
      proofs := b.proofs.filter fun u => u.1 ≠ tree, loose := t :: b.loose } := by
  obtain ⟨before, after, hsplit, hne, -⟩ := h.split mem
  have hfilter : (b.proofs.filter fun u => u.1 ≠ tree) = before ++ after := by
    rw [hsplit, List.filter_append, List.filter_cons_of_neg (by simp), ← List.filter_append,
      List.filter_eq_self]
    exact fun u hu => decide_eq_true (hne u hu)
  refine h.rearrange ?_ ?_ rfl ?_
  · exact (h.tree_nodup.sublist ((List.filter_sublist).map Prod.fst))
  · exact fun u hu => h.tree_lt u (List.mem_of_mem_filter hu)
  · rw [hfilter, all, hsplit, List.map_append, List.map_append, List.map_cons,
      List.append_assoc, List.append_assoc]
    exact List.perm_middle.append_left _

theorem Wf.discarding (h : b.Wf allowed) {rest : List ProofTree} (loose : b.loose = p :: rest) :
    Wf allowed { b with slots := b.slots.releaseAll p.idsUpward, loose := rest } := by
  have hall : b.all.Perm (p :: (b.proofs.map Prod.snd ++ rest)) := by
    rw [all, loose]
    exact List.perm_middle
  have hheld := h.held.perm (hall.flatMap_right ProofTree.ids)
  rw [List.flatMap_cons] at hheld
  refine ⟨h.tree_nodup, h.tree_lt, ?_, ?_, ?_⟩
  · exact (hheld.perm (p.idsUpward_perm.symm.append_right _)).releaseAll
  · exact fun r hr => h.settled r (hall.mem_iff.mpr (List.mem_cons_of_mem _ hr))
  · exact fun r hr => h.justified r (hall.mem_iff.mpr (List.mem_cons_of_mem _ hr))

theorem Wf.commenting (h : b.Wf allowed) (comment : String)
    (located : b.locate? n = some (tree, p)) :
    Wf allowed
      (b.put tree n (p.mapNode fun node => { node with comment := comment }).settled) := by
  obtain ⟨hsettled, hjust⟩ := h.of_locate? located
  -- the node, and not what is below it, gets the comment
  let q := p.mapNode fun node => { node with comment := comment }
  have hnode : q.node = { p.node with comment := comment } := ProofTree.node_mapNode _ p
  have hsequent : q.sequent = p.sequent := by rw [ProofTree.sequent, hnode]; rfl
  have hchildren : q.children = p.children := ProofTree.children_mapNode _ p
  refine h.swap located ((ProofTree.sequent_settled q).trans hsequent) ⟨?_, ?_⟩
    (fun r => h.of_mem_loose) ?_
  · exact .of_children (hchildren ▸ hsettled.child)
  · refine .mk (hjust.top.congr hsequent ?_ ?_ ?_).settled ?_
    · exact ProofTree.rule?_mapNode _ p
    · exact ProofTree.skipped_mapNode _ p
    · rw [hchildren]
    · rw [ProofTree.children_settled, hchildren]
      exact hjust.child
  · rw [ProofTree.ids_settled, ProofTree.ids_eq q, ProofTree.ids_eq p, hchildren]
    rw [ProofTree.id, hnode]
    exact .refl _

theorem Wf.detaching (h : b.Wf allowed) (located : b.locate? n = some (tree, p)) :
    Wf allowed { b.put tree n p.withoutRule.settled with loose := p.children ++ b.loose } := by
  obtain ⟨hsettled, hjust⟩ := h.of_locate? located
  refine h.swap located (ProofTree.sequent_settled _) ⟨?_, ?_⟩ ?_ ?_
  · exact .of_children fun c hc => nomatch hc
  · exact .of_open (ProofTree.justified_openNode hjust.top.wellTyped)
  · intro r hr
    rcases List.mem_append.mp hr with hr | hr
    · exact ⟨hsettled.child r hr, hjust.child r hr⟩
    · exact h.of_mem_loose hr
  · rw [ProofTree.ids_settled, ProofTree.ids_eq p, List.flatMap_append, List.cons_append]
    exact .refl _

/-- So does attaching: the rule gives the children, on a sequent that is the
    same. -/
theorem Wf.attaching (h : b.Wf allowed) {rule : Rule} {skipped : SkippedActions}
    {children rest : List ProofTree} {s : Sequent} (located : b.locate? n = some (tree, p))
    (isOpen : p.isOpen = true) (loose : b.loose = children ++ rest) (ok : allowed rule)
    (same : s.sameAs p.sequent = true)
    (expand : rule.expand s = some (children.map ProofTree.sequent, skipped)) :
    Wf allowed { b.put tree n (ProofTree.applied p.node rule skipped children).settled with
      loose := rest } := by
  obtain ⟨-, hjust⟩ := h.of_locate? located
  have hchildren : ∀ c ∈ children, c.Settled ∧ c.Everywhere (ProofTree.Justified allowed) :=
    fun c hc => h.of_mem_loose (loose ▸ List.mem_append_left _ hc)
  refine h.swap located (ProofTree.sequent_settled _) ⟨?_, ?_⟩
    (fun r hr => h.of_mem_loose (loose ▸ List.mem_append_right _ hr)) ?_
  · exact .of_children fun c hc => (hchildren c hc).1
  · refine .mk (ProofTree.Justified.settled ⟨hjust.top.wellTyped, ?_⟩) ?_
    · rintro r ⟨⟩
      exact ⟨ok, s, same, expand⟩
    · exact fun c hc => (hchildren c hc).2
  -- an open node has nothing below it that could get lost
  · have hp : p.children = [] := by
      cases p with
      | openNode node => rfl
      | applied node rule skipped children => exact nomatch isOpen
    rw [ProofTree.ids_settled, ProofTree.ids_eq p, hp, loose, List.flatMap_append,
      ProofTree.ids, ProofTree.idsAmong_eq]
    exact .refl _

/-- Every move keeps the workbench in order. -/
theorem Wf.move {b' : Bench} (h : b.Wf allowed) (hmove : Move allowed b b') : b'.Wf allowed := by
  cases hmove with
  | opening sequents wellTyped => exact h.opening wellTyped
  | copying located => exact h.copying located
  | planting loose => exact h.planting loose
  | uprooting mem => exact h.uprooting mem
  | discarding loose => exact h.discarding loose
  | commenting comment located => exact h.commenting comment located
  | detaching located => exact h.detaching located
  | attaching located isOpen loose ok same expand =>
      exact h.attaching located isOpen loose ok same expand

/-- Where a rule is taken off in one tree, the nodes of the others stay. -/
theorem Wf.locate?_detached (h : b.Wf allowed) {other : TreeId} {m : NodeId}
    (detached : b.locate? m = some (other, q)) (located : b.locate? n = some (tree, p))
    (hne : tree ≠ other) :
    Bench.locate? { b.put other m q.withoutRule.settled with loose := q.children ++ b.loose } n
      = some (tree, p) := by
  obtain ⟨t, hmem, hfind⟩ := mem_of_locate? located
  exact (h.detaching detached).locate?_eq (mem_put_of_ne hmem hne _) hfind

/-- **Every sequence of moves keeps the order.**. -/
theorem Wf.moves {b' : Bench} (h : b.Wf allowed) (hmoves : Moves allowed b b') :
    b'.Wf allowed := by
  induction hmoves with
  | refl => exact h
  | tail _ hmove ih => exact ih.move hmove

end Bench

end SequentProver
