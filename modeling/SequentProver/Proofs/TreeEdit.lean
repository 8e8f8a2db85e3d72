import SequentProver.Proofs.TreeShape

/-! # Editing proof trees

    An edit changes the subtree at one node and recomputes the levels above
    it, stopping where a level does not move.  In a tree whose levels are
    right to begin with this comes to putting the new subtree in place and
    recomputing every level on the way to the root.

    Route:
    1. levels, and trees that are settled: every node is at its level;
    2. `put`, the plain replacement, and `edit_eq_put`;
    3. what a replacement does to the handles and to the nodes around it;
    4. two replacements, the second inside the first. -/

namespace SequentProver

/-- A bound below the lower of two levels is below both. -/
theorem Confidence.lt_value_min {k : Int} {c d : Confidence} :
    k < (c.min d).value ↔ k < c.value ∧ k < d.value := by
  rw [Confidence.min]
  split <;> omega

namespace ProofTree

variable {t p q : ProofTree} {n : NodeId}

/-! ## Levels -/

/-- The level of an applied node looks at the levels of its children only. -/
theorem level_applied (node : Node) (rule : Rule) (skipped : SkippedActions)
    (children : List ProofTree) :
    level (.applied node rule skipped children) =
      (children.map confidence).foldl Confidence.min rule.confidence := by
  rw [level, List.foldl_map]

/-- A bound is below the level of an applied node if it is below the rule
    and below every child. -/
theorem lt_level_applied {k : Int} {node : Node} {rule : Rule} {skipped : SkippedActions}
    {children : List ProofTree} :
    k < (level (.applied node rule skipped children)).value ↔
      k < rule.confidence.value ∧ ∀ c ∈ children, k < c.confidence.value := by
  rw [level]
  -- the level reached so far takes the place of the rule's
  generalize rule.confidence = lowest
  induction children generalizing lowest with
  | nil => simp
  | cons c rest ih => rw [List.foldl_cons, ih, Confidence.lt_value_min, List.forall_mem_cons,
      and_assoc]

/-- The tree with the node at the top at its level. -/
def settled (t : ProofTree) : ProofTree := t.mapNode fun n => { n with confidence := t.level }

@[simp]
theorem id_settled (t : ProofTree) : t.settled.id = t.id := by
  cases t <;> rfl

@[simp]
theorem sequent_settled (t : ProofTree) : t.settled.sequent = t.sequent := by
  cases t <;> rfl

/-- A settled top is at its level. -/
@[simp]
theorem confidence_settled (t : ProofTree) : t.settled.confidence = t.level := by
  cases t <;> rfl

@[simp]
theorem children_settled (t : ProofTree) : t.settled.children = t.children :=
  children_mapNode _ t

/-- Levels are not computed from the one at the top. -/
@[simp]
theorem level_settled (t : ProofTree) : t.settled.level = t.level := by
  cases t <;> rfl

@[simp]
theorem skeleton_settled (t : ProofTree) : t.settled.skeleton = t.skeleton := by
  cases t <;> rfl

/-- Dependencies do not look at levels. -/
@[simp]
theorem dependencies_settled (t : ProofTree) : t.settled.dependencies = t.dependencies := by
  cases t <;> rfl

@[simp]
theorem ids_settled (t : ProofTree) : t.settled.ids = t.ids := by
  rw [ids_eq, ids_eq t, id_settled, children_settled]

/-- A top at its level is settled already. -/
theorem settled_eq (h : t.confidence = t.level) : t.settled = t := by
  cases t <;> rw [settled, ← h] <;> rfl

/-- Settling is recorded with its result. -/
theorem settle_result (t : ProofTree) : t.settle.result = t.settled := by
  rw [settle]
  split
  · rename_i h
    exact (settled_eq h.symm).symm
  · rfl

/-- The level at the top stays when settling reports no move. -/
theorem confidence_of_not_moved (h : t.settle.moved = false) :
    t.settle.result.confidence = t.confidence := by
  rw [settle] at h ⊢
  split
  · rfl
  · rename_i hne
    rw [if_neg hne] at h
    exact nomatch h

/-- Every node is at its level. -/
def Settled (t : ProofTree) : Prop := Everywhere (fun p => p.confidence = p.level) t

/-- A tree is settled if its children are and its top is. -/
theorem Settled.of_children (h : ∀ c ∈ t.children, c.Settled) : t.settled.Settled := by
  refine .mk ?_ ?_
  · rw [confidence_settled, level_settled]
  · rw [children_settled]
    exact h

/-! ## Putting a subtree in place -/

mutual

/-- The tree with `q` in place of the subtree at a node, and the levels on
    the way there recomputed. -/
def put (target : NodeId) : ProofTree → ProofTree → ProofTree
  | .openNode node, q => if node.id = target then q else .openNode node
  | .applied node rule skipped children, q =>
    if node.id = target then q
    else (ProofTree.applied node rule skipped (putAmong target children q)).settled

/-- Put the subtree in its place in the sibling that has the handle. -/
def putAmong (target : NodeId) : List ProofTree → ProofTree → List ProofTree
  | [], _ => []
  | t :: rest, q => put target t q :: putAmong target rest q

end

/-- Putting a subtree in place, sibling by sibling. -/
@[simp]
theorem putAmong_eq (n : NodeId) (ts : List ProofTree) (q : ProofTree) :
    putAmong n ts q = ts.map (put n · q) := by
  induction ts with
  | nil => rfl
  | cons t rest ih => rw [putAmong, ih, List.map_cons]

theorem put_of_id (h : t.id = n) : t.put n q = q := by
  cases t with
  | openNode node => exact if_pos h
  | applied node rule skipped children => exact if_pos h

/-- Below the top, with its level computed again. -/
theorem put_applied {node : Node} {rule : Rule} {skipped : SkippedActions}
    {children : List ProofTree} (h : node.id ≠ n) :
    put n (.applied node rule skipped children) q =
      (ProofTree.applied node rule skipped (children.map (put n · q))).settled := by
  rw [put, if_neg h, putAmong_eq]

/-- Nothing is replaced in a tree without the node. -/
theorem put_of_not_mem (ht : t.Settled) (h : n ∉ t.ids) : t.put n q = t := by
  induction t with
  | openNode node =>
      rw [ids, List.mem_singleton] at h
      exact if_neg (Ne.symm h)
  | applied node rule skipped children ih =>
      rw [ids, idsAmong_eq, List.mem_cons, not_or] at h
      obtain ⟨hid, hbelow⟩ := h
      rw [put_applied (Ne.symm hid)]
      have hsame : children.map (put n · q) = children.map fun c => c := by
        refine List.map_congr_left fun c hc => ih c hc (ht.child c hc) fun hmem => hbelow ?_
        exact List.mem_flatMap.mpr ⟨c, hc, hmem⟩
      rw [hsame, List.map_id']
      exact settled_eq ht.top

/-- Among several trees without the node nothing is replaced. -/
theorem map_put_of_not_mem {ts : List ProofTree} (hts : ∀ t ∈ ts, t.Settled)
    (h : n ∉ ts.flatMap ids) : ts.map (put n · q) = ts := by
  have hsame : ts.map (put n · q) = ts.map fun t => t := by
    refine List.map_congr_left fun t ht => put_of_not_mem (hts t ht) fun hmem => h ?_
    exact List.mem_flatMap.mpr ⟨t, ht, hmem⟩
  rw [hsame, List.map_id']

/-- Replacing a child of the node at the top. -/
theorem put_child {node : Node} {rule : Rule} {skipped : SkippedActions}
    {before after : List ProofTree} {c : ProofTree}
    (hids : (ProofTree.applied node rule skipped (before ++ c :: after)).ids.Nodup)
    (hbefore : ∀ d ∈ before, d.Settled) (hafter : ∀ d ∈ after, d.Settled) :
    (ProofTree.applied node rule skipped (before ++ c :: after)).settled.put c.id q =
      (ProofTree.applied node rule skipped (before ++ q :: after)).settled := by
  rw [ids, idsAmong_eq, List.nodup_cons, List.flatMap_append, List.flatMap_cons,
    List.nodup_append, List.nodup_append] at hids
  obtain ⟨htop, -, ⟨-, -, hdisjoint⟩, hdisjoint'⟩ := hids
  have hc : c.id ∈ c.ids := c.id_mem_ids
  have hid : node.id ≠ c.id := fun h =>
    htop (h ▸ List.mem_append_right _ (List.mem_append_left _ hc))
  refine (put_applied hid).trans ?_
  rw [List.map_append, List.map_cons, put_of_id rfl,
    map_put_of_not_mem hbefore fun h => hdisjoint' c.id h c.id (List.mem_append_left _ hc) rfl,
    map_put_of_not_mem hafter fun h => hdisjoint c.id hc c.id h rfl]

/-- Handles in front of those of one subtree may move behind them. -/
theorem perm_around {n : NodeId} {before mid after top rest : List NodeId}
    (h : mid.Perm (top ++ rest)) :
    (n :: (before ++ (mid ++ after))).Perm (top ++ n :: (before ++ (after ++ rest))) := by
  rw [List.perm_iff_count] at h ⊢
  intro a
  have ha := h a
  simp only [List.count_cons, List.count_append] at ha ⊢
  omega

/-- The way to a node: to relate a tree and the tree with `q` in place of
    the subtree `p`, relate `p` and `q`, and go up from one child to its
    parent.  The other children stay as they are. -/
@[elab_as_elim]
theorem put_induct {motive : ProofTree → ProofTree → Prop} (here : motive p q)
    (above : ∀ node rule skipped before c after, node.id ≠ n → n ∉ before.flatMap ids →
      c.find? n = some p → motive c (c.put n q) →
      motive (.applied node rule skipped (before ++ c :: after))
        (ProofTree.applied node rule skipped (before ++ c.put n q :: after)).settled)
    (ht : t.Settled) (hids : t.ids.Nodup) (hfind : t.find? n = some p) :
    motive t (t.put n q) := by
  induction t with
  | openNode node =>
      rw [find?_eq] at hfind
      split at hfind
      · rename_i hid
        cases hfind
        rw [put_of_id hid]
        exact here
      · exact nomatch hfind
  | applied node rule skipped children ih =>
      rw [find?_eq] at hfind
      split at hfind
      · rename_i hid
        cases hfind
        rw [put_of_id hid]
        exact here
      · rename_i hne
        obtain ⟨before, c, after, hsplit, hfound, -⟩ := List.findSome?_eq_some_iff.mp hfind
        have hchildren : children = before ++ c :: after := hsplit
        subst hchildren
        have hid : node.id ≠ n := hne
        have hc : c ∈ before ++ c :: after := List.mem_append_right _ List.mem_cons_self
        have hmem : n ∈ c.ids := mem_ids_of_find? hfound
        -- a handle occurs once, so only `c` has it
        rw [ids, idsAmong_eq, List.nodup_cons, List.flatMap_append, List.flatMap_cons,
          List.nodup_append, List.nodup_append] at hids
        obtain ⟨-, -, ⟨hcids, -, hafter⟩, hbefore⟩ := hids
        have hnotBefore : n ∉ before.flatMap ids := fun h =>
          hbefore n h n (List.mem_append_left _ hmem) rfl
        have hnotAfter : n ∉ after.flatMap ids := fun h => hafter n hmem n h rfl
        rw [put_applied hid, List.map_append, List.map_cons,
          map_put_of_not_mem (fun d hd => ht.child d (List.mem_append_left _ hd)) hnotBefore,
          map_put_of_not_mem (fun d hd => ht.child d (List.mem_append_right _
            (List.mem_cons_of_mem _ hd))) hnotAfter]
        exact above node rule skipped before c after hid hnotBefore hfound
          (ih c hc (ht.child c hc) hcids hfound)

/-! ## An edit puts the changed subtree in place -/

section Edit

variable {change : ProofTree → ProofTree}

theorem edit_of_id (h : t.id = n) : t.edit n change = some (change t).settle := by
  cases t with
  | openNode node => exact if_pos h
  | applied node rule skipped children => exact if_pos h

/-- An edit of a node that is not there. -/
theorem edit_eq_none (h : n ∉ t.ids) : t.edit n change = none := by
  induction t with
  | openNode node =>
      rw [ids, List.mem_singleton] at h
      exact if_neg (Ne.symm h)
  | applied node rule skipped children ih =>
      rw [ids, idsAmong_eq, List.mem_cons, not_or] at h
      obtain ⟨hid, hbelow⟩ := h
      rw [edit, if_neg (Ne.symm hid), Option.map_eq_none_iff]
      clear hid
      induction children with
      | nil => rfl
      | cons c rest ihrest =>
          rw [List.flatMap_cons, List.mem_append, not_or] at hbelow
          rw [editAmong, ih c List.mem_cons_self hbelow.1]
          rw [ihrest (fun d hd => ih d (List.mem_cons_of_mem _ hd)) hbelow.2]
          rfl

/-- Among several trees the edit happens in the first that has the node. -/
theorem editAmong_append {before : List ProofTree} {c : ProofTree} {e : Edited ProofTree}
    (after : List ProofTree) (hbefore : n ∉ before.flatMap ids) (hc : c.edit n change = some e) :
    editAmong n change (before ++ c :: after) =
      some ⟨before ++ e.result :: after, e.moved, e.risen⟩ := by
  induction before with
  | nil => rw [List.nil_append, editAmong, hc]; rfl
  | cons b rest ih =>
      rw [List.flatMap_cons, List.mem_append, not_or] at hbefore
      rw [List.cons_append, editAmong, edit_eq_none hbefore.1, ih hbefore.2]
      rfl

/-- Settling above a change that did not move any level leaves the node at
    its level all the same. -/
theorem settleAbove_result {node : Node} {rule : Rule} {skipped : SkippedActions}
    {children : List ProofTree} (below : Edited (List ProofTree))
    (hlevel : node.confidence = level (.applied node rule skipped children))
    (hmoved : below.moved = false → below.result.map confidence = children.map confidence) :
    (settleAbove node rule skipped below).result =
        (ProofTree.applied node rule skipped below.result).settled ∧
      ((settleAbove node rule skipped below).moved = false →
        (settleAbove node rule skipped below).result.confidence = node.confidence) := by
  rw [settleAbove]
  by_cases hb : below.moved = true
  · rw [if_pos hb]
    exact ⟨settle_result _, confidence_of_not_moved⟩
  · rw [if_neg hb]
    refine ⟨(settled_eq ?_).symm, fun _ => rfl⟩
    rw [level_applied, hmoved (Bool.eq_false_iff.mpr hb), ← level_applied node rule skipped]
    exact hlevel

/-- In a settled tree an edit that keeps the level of the node it changes
    puts the changed subtree in place. -/
theorem edit_eq_put (hchange : (change p).confidence = p.confidence) (ht : t.Settled)
    (hids : t.ids.Nodup) (hfind : t.find? n = some p) :
    ∃ e, t.edit n change = some e ∧ e.result = t.put n (change p).settled := by
  suffices h : t.Settled → ∃ e, t.edit n change = some e ∧
      e.result = t.put n (change p).settled ∧
      (e.moved = false → e.result.confidence = t.confidence) by
    obtain ⟨e, he, hresult, -⟩ := h ht
    exact ⟨e, he, hresult⟩
  -- upwards from the node: as long as nothing moved, the levels above are right
  refine put_induct (motive := fun t t' => t.Settled → ∃ e, t.edit n change = some e ∧
    e.result = t' ∧ (e.moved = false → e.result.confidence = t.confidence)) ?_ ?_ ht hids hfind
  · intro _
    refine ⟨_, edit_of_id (id_of_find? hfind), settle_result _, fun h => ?_⟩
    rw [confidence_of_not_moved h, hchange]
  · intro node rule skipped before c after hid hbefore _ ih hsettled
    have hc : c.Settled := hsettled.child c (List.mem_append_right _ List.mem_cons_self)
    obtain ⟨e, he, hresult, hmoved⟩ := ih hc
    have hlevel : node.confidence = level (.applied node rule skipped (before ++ c :: after)) :=
      hsettled.top
    have hamong := editAmong_append after hbefore he
    obtain ⟨hput, hstays⟩ :=
      settleAbove_result ⟨before ++ e.result :: after, e.moved, e.risen⟩ hlevel fun h => by
        simp only [List.map_append, List.map_cons, hmoved h]
    refine ⟨_, ?_, ?_, hstays⟩
    · rw [edit, if_neg hid, hamong, Option.map_some]
    · rw [hput, hresult]

end Edit

/-! ## Around the replaced subtree -/

section Around

variable (ht : t.Settled) (hids : t.ids.Nodup) (hfind : t.find? n = some p)
include ht hids hfind

/-- The handles of the subtree give way to those of the new one; the others
    stay. -/
theorem ids_put (q : ProofTree) :
    ∃ rest, t.ids.Perm (p.ids ++ rest) ∧ (t.put n q).ids.Perm (q.ids ++ rest) := by
  refine put_induct ?_ ?_ ht hids hfind
  · exact ⟨[], by rw [List.append_nil], by rw [List.append_nil]⟩
  · rintro node rule skipped before c after - - - ⟨rest, hold, hnew⟩
    refine ⟨node.id :: (before.flatMap ids ++ (after.flatMap ids ++ rest)), ?_, ?_⟩
    · rw [ids, idsAmong_eq, List.flatMap_append, List.flatMap_cons]
      exact perm_around hold
    · rw [ids_settled, ids, idsAmong_eq, List.flatMap_append, List.flatMap_cons]
      exact perm_around hnew

/-- What was put in place is found there. -/
theorem find?_put (hq : q.id = n) : (t.put n q).find? n = some q := by
  refine put_induct ?_ ?_ ht hids hfind
  · rw [find?_eq, if_pos hq]
  · intro node rule skipped before c after hid hbefore _ ih
    rw [find?_eq, id_settled, children_settled]
    show (if node.id = n then _ else (before ++ _ :: after).findSome? _) = _
    rw [if_neg hid, List.findSome?_append, findSome?_eq_none hbefore, List.findSome?_cons, ih]
    rfl

/-- What holds everywhere still does, if at a node it does not look beyond
    the sequents of the children. -/
theorem Everywhere.put {P : ProofTree → Prop}
    (hP : ∀ node rule skipped before c c' after, c'.sequent = c.sequent →
      P (.applied node rule skipped (before ++ c :: after)) →
      P (ProofTree.applied node rule skipped (before ++ c' :: after)).settled)
    (hsequent : q.sequent = p.sequent) (hq : Everywhere P q) (hP_t : Everywhere P t) :
    Everywhere P (t.put n q) := by
  -- along the way up the sequent of the edited child stays, which is all that `hP` asks
  suffices h : Everywhere P t → Everywhere P (t.put n q) ∧ (t.put n q).sequent = t.sequent from
    (h hP_t).1
  refine put_induct (motive := fun t t' => Everywhere P t → Everywhere P t' ∧
    t'.sequent = t.sequent) ?_ ?_ ht hids hfind
  · exact fun _ => ⟨hq, hsequent⟩
  · intro node rule skipped before c after _ _ _ ih h
    obtain ⟨hput, hseq⟩ := ih (h.child c (List.mem_append_right _ List.mem_cons_self))
    refine ⟨.mk (hP _ _ _ _ _ _ _ hseq h.top) ?_, sequent_settled _⟩
    rw [children_settled]
    intro d hd
    rcases List.mem_append.mp hd with hd | hd
    · exact h.child d (List.mem_append_left _ hd)
    · rcases List.mem_cons.mp hd with rfl | hd
      · exact hput
      · exact h.child d (List.mem_append_right _ (List.mem_cons_of_mem _ hd))

/-- Putting a settled subtree in place leaves the tree settled. -/
theorem Settled.put (hsequent : q.sequent = p.sequent) (hq : q.Settled) :
    (t.put n q).Settled := by
  refine Everywhere.put ht hids hfind ?_ hsequent hq ht
  intros
  rw [confidence_settled, level_settled]

end Around

/-- Putting back what is there changes nothing. -/
theorem put_self (ht : t.Settled) (hids : t.ids.Nodup) (hfind : t.find? n = some p) :
    t.put n p = t := by
  suffices h : t.Settled → t.put n p = t from h ht
  refine put_induct (motive := fun t t' => t.Settled → t' = t) (fun _ => rfl) ?_ ht hids hfind
  intro node rule skipped before c after _ _ _ ih hsettled
  rw [ih (hsettled.child c (List.mem_append_right _ List.mem_cons_self))]
  exact settled_eq hsettled.top

/-- Replacing something inside what was just put in place, or all of it. -/
theorem put_put {c : NodeId} {r : ProofTree} (hc : c ∈ t.ids → c = n) :
    (t.put n q).put c r = t.put n (q.put c r) := by
  induction t with
  | openNode node =>
      rw [ids, List.mem_singleton] at hc
      by_cases hid : node.id = n
      · rw [put_of_id (t := .openNode node) hid, put_of_id (t := .openNode node) hid]
      · have hne : node.id ≠ c := fun h => hid (h.trans (hc h.symm))
        rw [put, put, if_neg hid, if_neg hid, put, if_neg hne]
  | applied node rule skipped children ih =>
      rw [ids, idsAmong_eq, List.mem_cons] at hc
      by_cases hid : node.id = n
      · rw [put_of_id (t := .applied node rule skipped children) hid,
          put_of_id (t := .applied node rule skipped children) hid]
      · have hne : node.id ≠ c := fun h => hid (h.trans (hc (Or.inl h.symm)))
        rw [put_applied hid, put_applied hid]
        have hchildren : (children.map (put n · q)).map (put c · r) =
            children.map (put n · (q.put c r)) := by
          rw [List.map_map]
          refine List.map_congr_left fun d hd => ih d hd fun hmem => hc (Or.inr ?_)
          exact List.mem_flatMap.mpr ⟨d, hd, hmem⟩
        -- the level that the first replacement gave the node is overwritten
        calc (ProofTree.applied node rule skipped (children.map (put n · q))).settled.put c r
            = (ProofTree.applied node rule skipped
                ((children.map (put n · q)).map (put c · r))).settled :=
              put_applied hne
          _ = _ := by rw [hchildren]

end ProofTree

end SequentProver
