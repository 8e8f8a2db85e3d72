import SequentProver.Proofs.Links
import SequentProver.Proofs.Loop

/-! # Open nodes in order

    The open nodes below a node are collected by a loop over a stack of
    handles, and the first of them is sought by the same loop stopped early.
    In a reachable forest both loops end without a failed look-up, and they
    agree with the recursion over the tree: each open node below the node
    once, in pre-order.

    Route:
    1. pre-order is the order of the paths of child positions, and the
       traversal of a tree lists its handles in that order;
    2. the open nodes are among them, and the first one found is the head;
    3. the loops: one turn replaces a handle by those of its children, and
       from there the handle of a pending subtree is worked off as the
       recursion works off the subtree. -/

namespace SequentProver

namespace ProofTree

variable {t p q : ProofTree} {n m : NodeId}

/-! ## Pre-order -/

/-- A path to a node below a child takes that child first. -/
theorem exists_of_follow {i : Nat} {c : ProofTree} {path : List Nat} (hids : t.ids.Nodup)
    (hc : t.children[i]? = some c) (hfollow : t.follow path = some p) (hp : p.id ∈ c.ids) :
    ∃ rest, path = i :: rest ∧ c.follow rest = some p := by
  have hmem : c ∈ t.children := List.mem_of_getElem? hc
  cases path with
  | nil =>
      cases hfollow
      rw [ids_eq, List.nodup_cons] at hids
      exact absurd (List.mem_flatMap.mpr ⟨c, hmem, hp⟩) hids.1
  | cons j rest =>
      obtain ⟨d, hd, hrest⟩ := Option.bind_eq_some_iff.mp hfollow
      have hdids := nodup_ids_child hids (List.mem_of_getElem? hd)
      have hmem' := mem_ids_of_find? (find?_of_follow hdids hrest)
      cases child_unique hids hc hd hp hmem'
      cases hc.symm.trans hd
      exact ⟨rest, rfl, hrest⟩

/-- On every way to them, the node `a` stands before the node `b`: parents
    before what is below them, and earlier children before later ones. -/
def Precedes (t : ProofTree) (a b : NodeId) : Prop :=
  ∀ path path' p q, t.follow path = some p → t.follow path' = some q → p.id = a → q.id = b →
    path < path'

/-- The handles of a tree are listed in pre-order. -/
theorem pairwise_precedes_ids (hids : t.ids.Nodup) : t.ids.Pairwise t.Precedes := by
  induction t using children_induct with
  | step t ih =>
      rw [ids_eq, List.pairwise_cons, List.pairwise_flatMap]
      refine ⟨?_, ?_, ?_⟩
      · -- the top is at the empty path, and nothing else is
        intro b hb path path' p q hp hq hpid hqid
        obtain rfl : path = [] := follow_unique hids hp (q := t) rfl hpid
        cases path' with
        | nil =>
            cases hq
            rw [ids_eq, List.nodup_cons] at hids
            exact absurd (hqid ▸ hb) hids.1
        | cons j rest => exact .nil
      · intro c hc
        obtain ⟨i, hi⟩ := List.mem_iff_getElem?.mp hc
        refine (ih c hc (nodup_ids_child hids hc)).imp_of_mem ?_
        intro a b ha hb hprecedes path path' p q hp hq hpid hqid
        obtain ⟨rest, rfl, hrest⟩ := exists_of_follow hids hi hp (hpid ▸ ha)
        obtain ⟨rest', rfl, hrest'⟩ := exists_of_follow hids hi hq (hqid ▸ hb)
        exact .cons (hprecedes rest rest' p q hrest hrest' hpid hqid)
      · rw [List.pairwise_iff_getElem]
        intro i j hi hj hlt a ha b hb path path' p q hp hq hpid hqid
        obtain ⟨rest, rfl, -⟩ :=
          exists_of_follow hids (List.getElem?_eq_getElem hi) hp (hpid ▸ ha)
        obtain ⟨rest', rfl, -⟩ :=
          exists_of_follow hids (List.getElem?_eq_getElem hj) hq (hqid ▸ hb)
        exact .rel hlt

/-! ## Open nodes -/

/-- The open nodes are listed as in the list of all nodes. -/
theorem openNodes_sublist (t : ProofTree) : t.openNodes.Sublist t.ids := by
  induction t with
  | openNode node => exact .refl _
  | applied node rule skipped children ih =>
      rw [openNodes, ids, openNodesAmong_eq, idsAmong_eq]
      refine .cons _ ?_
      clear rule skipped
      induction children with
      | nil => exact .refl _
      | cons c rest ihrest =>
          rw [List.flatMap_cons, List.flatMap_cons]
          exact (ih c List.mem_cons_self).append
            (ihrest fun d hd => ih d (List.mem_cons_of_mem _ hd))

/-- The first open node among siblings, one by one. -/
@[simp]
theorem firstOpenAmong?_eq (ts : List ProofTree) :
    firstOpenAmong? ts = ts.findSome? firstOpen? := by
  induction ts with
  | nil => rfl
  | cons t rest ih =>
      rw [firstOpenAmong?, ih, List.findSome?_cons]
      cases firstOpen? t with
      | none => rfl
      | some found => rfl

/-- The search for an open node finds the one that is listed first. -/
theorem firstOpen?_eq_head? (t : ProofTree) : t.firstOpen? = t.openNodes.head? := by
  induction t with
  | openNode node => rfl
  | applied node rule skipped children ih =>
      rw [firstOpen?, firstOpenAmong?_eq, openNodes, openNodesAmong_eq, List.head?_flatMap]
      clear rule skipped
      induction children with
      | nil => rfl
      | cons c rest ihrest =>
          rw [List.findSome?_cons, List.findSome?_cons, ih c List.mem_cons_self,
            ihrest fun d hd => ih d (List.mem_cons_of_mem _ hd)]

end ProofTree

namespace Forest

variable {allowed : Rule → Prop} {f : Forest} {n m : NodeId} {p t : ProofTree}
  {found stack : List NodeId}

/-! ## The loops

The stack is a list with its top in front, so that children pushed last to
first come to stand in their own order. -/

/-- Take a handle off the stack, note it behind `found` if it is open, and put
    its children there. -/
def collectTurn (f : Forest) : List NodeId × List NodeId →
    Option (List NodeId × List NodeId ⊕ Except TreeError (List NodeId))
  | (found, []) => some (.inr (.ok found))
  | (found, n :: stack) =>
    match f.nodeOrError n with
    | .error e => some (.inr (.error e))
    | .ok p =>
      some (.inl (if p.isOpen then found ++ [n] else found, p.children.map ProofTree.id ++ stack))

/-- Take a handle off the stack, stop if it is open, and else put its children
    there. -/
def seekTurn (f : Forest) : List NodeId →
    Option (List NodeId ⊕ Except TreeError (Option NodeId))
  | [] => some (.inr (.ok none))
  | n :: stack =>
    match f.nodeOrError n with
    | .error e => some (.inr (.error e))
    | .ok p =>
      some (if p.isOpen then .inr (.ok (some n)) else .inl (p.children.map ProofTree.id ++ stack))

/-- A node that is there is no error. -/
theorem nodeOrError_of_node? (hnode : f.node? n = some p) : f.nodeOrError n = .ok p := by
  rw [nodeOrError, hnode]

/-- A turn at a node that is there. -/
theorem collectTurn_cons (hnode : f.node? n = some p) :
    f.collectTurn (found, n :: stack) =
      some (.inl (if p.isOpen then found ++ [n] else found,
        p.children.map ProofTree.id ++ stack)) := by
  rw [collectTurn, nodeOrError_of_node? hnode]

theorem seekTurn_cons (hnode : f.node? n = some p) :
    f.seekTurn (n :: stack) =
      some (if p.isOpen then .inr (.ok (some n))
        else .inl (p.children.map ProofTree.id ++ stack)) := by
  rw [seekTurn, nodeOrError_of_node? hnode]

/-! ## Pending subtrees -/

section Pending

variable (h : (f.bench []).Wf allowed)
include h

/-- The handle of a subtree on the stack is worked off as the subtree is by
    recursion; what is below it on the stack waits. -/
theorem collect_pending {answer : Except TreeError (List NodeId)} (ht : f.node? t.id = some t)
    (hrest : RunsTo f.collectTurn (found ++ t.openNodes, stack) answer) :
    RunsTo f.collectTurn (found, t.id :: stack) answer := by
  induction t generalizing found stack with
  | openNode node => exact .again (collectTurn_cons ht) hrest
  | applied node rule skipped children ih =>
      have hchildren : ∀ c ∈ children, f.node? c.id = some c := fun c hc => node?_child h ht hc
      refine .again (collectTurn_cons ht) ?_
      show RunsTo f.collectTurn (found, children.map ProofTree.id ++ stack) answer
      rw [ProofTree.openNodes, ProofTree.openNodesAmong_eq] at hrest
      clear ht
      -- the children one after another, each with its brothers below it on the stack
      induction children generalizing found with
      | nil => rwa [List.flatMap_nil, List.append_nil] at hrest
      | cons c rest ihrest =>
          rw [List.flatMap_cons, ← List.append_assoc] at hrest
          exact ih c List.mem_cons_self (hchildren c List.mem_cons_self)
            (ihrest (fun d hd => ih d (List.mem_cons_of_mem _ hd)) hrest
              fun d hd => hchildren d (List.mem_cons_of_mem _ hd))

/-- The search ends in a pending subtree or goes on behind it. -/
theorem seek_pending {first? : Option NodeId} (ht : f.node? t.id = some t)
    (hrest : RunsTo f.seekTurn stack (.ok first?)) :
    RunsTo f.seekTurn (t.id :: stack) (.ok (t.firstOpen?.or first?)) := by
  -- the turns spent on a subtree, before the rest of the stack comes up
  induction t generalizing stack first? with
  | openNode node => exact .done (seekTurn_cons ht)
  | applied node rule skipped children ih =>
      have hchildren : ∀ c ∈ children, f.node? c.id = some c := fun c hc => node?_child h ht hc
      refine .again (seekTurn_cons ht) ?_
      show RunsTo f.seekTurn (children.map ProofTree.id ++ stack) _
      rw [ProofTree.firstOpen?, ProofTree.firstOpenAmong?_eq]
      clear ht
      -- the brothers of a child are the rest of the stack for it
      induction children with
      | nil => exact hrest
      | cons c rest ihrest =>
          have hbrothers := ihrest (fun d hd => ih d (List.mem_cons_of_mem _ hd))
            fun d hd => hchildren d (List.mem_cons_of_mem _ hd)
          have hfirst := ih c List.mem_cons_self (hchildren c List.mem_cons_self) hbrothers
          rw [List.findSome?_cons]
          cases hc : c.firstOpen? with
          | some m => rwa [hc] at hfirst
          | none => rwa [hc] at hfirst

end Pending

/-! ## Reachable forests -/

/-- On every way from `n` along child links, `a` stands before `b`: parents
    before what is below them, and earlier children before later ones. -/
def Precedes (f : Forest) (n a b : NodeId) : Prop :=
  ∀ path path', f.follow path n = some a → f.follow path' n = some b → path < path'

/-- The order in the subtree at a node is the order along the links. -/
theorem precedes_of_node? (h : (f.bench []).Wf allowed) (hnode : f.node? n = some p)
    {a b : NodeId} (hprecedes : p.Precedes a b) : f.Precedes n a b := by
  intro path path' hpath hpath'
  rw [follow_eq h hnode] at hpath hpath'
  obtain ⟨q, hq, hqid⟩ := Option.map_eq_some_iff.mp hpath
  obtain ⟨r, hr, hrid⟩ := Option.map_eq_some_iff.mp hpath'
  exact hprecedes path path' q r hq hr hqid hrid

/-- The open nodes of a subtree are those that child links lead to. -/
theorem mem_openNodes_iff (h : (f.bench []).Wf allowed) (hnode : f.node? n = some p)
    (hids : p.ids.Nodup) :
    m ∈ p.openNodes ↔
      ∃ path q, f.follow path n = some m ∧ f.node? m = some q ∧ q.isOpen = true := by
  obtain ⟨t, ht, hfind⟩ := (node?_eq_some h).mp hnode
  have hfound : ∀ q, p.find? m = some q → f.node? m = some q := fun q hq =>
    (node?_eq_some h).mpr ⟨t, ht, ProofTree.find?_trans (nodup_ids h ht) hfind hq⟩
  rw [ProofTree.mem_openNodes hids]
  constructor
  · rintro ⟨q, hq, hopen⟩
    obtain ⟨path, hpath⟩ := ProofTree.exists_follow hq
    refine ⟨path, q, ?_, hfound q hq, hopen⟩
    rw [follow_eq h hnode, hpath, Option.map_some, ProofTree.id_of_find? hq]
  · rintro ⟨path, q, hpath, hq, hopen⟩
    rw [follow_eq h hnode] at hpath
    obtain ⟨r, hr, rfl⟩ := Option.map_eq_some_iff.mp hpath
    have hfindr := ProofTree.find?_of_follow hids hr
    cases (hfound r hfindr).symm.trans hq
    exact ⟨_, hfindr, hopen⟩

/-- **The traversals of open nodes are exact.**  In a reachable forest the
    open nodes below a node are those that child links lead to, each once and
    in pre-order; the search for the first one gives the head of the list; and
    the two loops over a stack of handles end, with these answers. -/
theorem open_traversals_exact (hf : f.Reachable) (hlive : (f.node? n).isSome = true) :
    ∃ goals, f.openDescendants n = .ok goals ∧ f.firstOpen n = .ok goals.head? ∧
      goals.Nodup ∧
      (∀ m, m ∈ goals ↔
        ∃ path q, f.follow path n = some m ∧ f.node? m = some q ∧ q.isOpen = true) ∧
      goals.Pairwise (f.Precedes n) ∧
      RunsTo f.collectTurn ([], [n]) (.ok goals) ∧ RunsTo f.seekTurn [n] (.ok goals.head?) := by
  have hwf := hf.wf
  obtain ⟨p, hnode⟩ := Option.isSome_iff_exists.mp hlive
  obtain ⟨t, ht, hfind⟩ := (node?_eq_some hwf).mp hnode
  have hids : p.ids.Nodup := ProofTree.nodup_ids_find? (nodup_ids hwf ht) hfind
  obtain rfl : p.id = n := ProofTree.id_of_find? hfind
  refine ⟨p.openNodes, ?_, ?_, hids.sublist p.openNodes_sublist,
    -- order and uniqueness come from the order in which the handles are listed
    fun m => mem_openNodes_iff hwf hnode hids, ?_, ?_, ?_⟩
  · rw [openDescendants, nodeOrError_of_node? hnode]
    rfl
  · rw [firstOpen, nodeOrError_of_node? hnode, ← ProofTree.firstOpen?_eq_head?]
    rfl
  · exact ((ProofTree.pairwise_precedes_ids hids).sublist p.openNodes_sublist).imp
      (precedes_of_node? hwf hnode)
  · exact collect_pending hwf hnode (.done rfl)
  · have hend : RunsTo f.seekTurn [] (.ok none) := .done rfl
    have hseek := seek_pending hwf hnode hend
    rwa [Option.or_none, ProofTree.firstOpen?_eq_head?] at hseek

/-- A rule that asks for its goal twice. -/
def doubling : Rule where
  reasoner := "double"
  display := "double"
  confidence := .reviewedMax
  antecedents := [{}, {}]

/-- The open node of a moved proof branches, and so does the first branch. -/
def branched : Forest := ((moved.applyRule ⟨2, 0⟩ doubling).2.applyRule ⟨3, 0⟩ doubling).2

theorem branched_reachable : branched.Reachable :=
  .step (.applyRule ⟨3, 0⟩ doubling)
    (.step (.applyRule ⟨2, 0⟩ doubling) (moved_reachable trivial) trivial) trivial

/-- The second branch was made before the nodes below the first, and comes
    after them. -/
theorem branched_traversed :
    branched.follow [0, 1] ⟨0, 0⟩ = some ⟨4, 0⟩ ∧ branched.follow [0, 0, 1] ⟨0, 0⟩ = some ⟨6, 0⟩ ∧
      branched.openDescendants ⟨0, 0⟩ = .ok [⟨5, 0⟩, ⟨6, 0⟩, ⟨4, 0⟩] ∧
      RunsTo branched.collectTurn ([], [⟨0, 0⟩]) (.ok [⟨5, 0⟩, ⟨6, 0⟩, ⟨4, 0⟩]) ∧
      RunsTo branched.seekTurn [⟨0, 0⟩] (.ok (some ⟨5, 0⟩)) := by
  have hlive : (branched.node? ⟨0, 0⟩).isSome = true := by decide +kernel
  obtain ⟨goals, hgoals, -, -, -, -, hcollect, hseek⟩ :=
    open_traversals_exact branched_reachable hlive
  have hlist : branched.openDescendants ⟨0, 0⟩ = .ok [⟨5, 0⟩, ⟨6, 0⟩, ⟨4, 0⟩] := by
    decide +kernel
  cases hgoals.symm.trans hlist
  exact ⟨by decide +kernel, by decide +kernel, hlist, hcollect, hseek⟩

end Forest

end SequentProver
