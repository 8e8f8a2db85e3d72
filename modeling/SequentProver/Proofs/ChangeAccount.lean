import SequentProver.Proofs.Links

/-! # What the records of a tree account for

    An edit records flags on the node it changes and on every node above whose
    level moved.  The records of many edits account for all that came of them:
    what differs on a node from the way it was is flagged on the node, or some
    node above got its children anew and says so.

    Route:
    1. flags and the flags recorded for a node, which only grow;
    2. `Face`, what a node shows of itself, and `Told`, flags that say what
       differs between two faces;
    3. `Accounted`, the flags of a whole tree against the faces of another: a
       node that says that its children changed answers for all below it;
    4. an edit keeps the account if its flags say what it does;
    5. what an account says node by node;
    6. a delta has the flags that are recorded. -/

namespace SequentProver

/-! ## Flags -/

namespace DeltaFlags

variable {a b c : DeltaFlags}

theorem contains_iff : a.contains b = true ↔ a.bits &&& b.bits = b.bits := by
  rw [contains, decide_eq_true_eq]

theorem contains_refl (a : DeltaFlags) : a.contains a = true :=
  contains_iff.mpr (UInt8.and_self)

/-- Containing flags is transitive. -/
theorem contains_trans (hab : a.contains b = true) (hbc : b.contains c = true) :
    a.contains c = true := by
  rw [contains_iff] at hab hbc ⊢
  calc a.bits &&& c.bits = a.bits &&& (b.bits &&& c.bits) := by rw [hbc]
    _ = a.bits &&& b.bits &&& c.bits := (UInt8.and_assoc _ _ _).symm
    _ = c.bits := by rw [hab, hbc]

/-- What lacks a flag contains nothing that has it. -/
theorem lacks_of_contains (hab : a.contains b = true) (hac : a.contains c = false) :
    b.contains c = false := by
  rw [← Bool.not_eq_true] at hac ⊢
  intro hbc
  exact hac (contains_trans hab hbc)

/-- A union has the flags on the left. -/
theorem contains_union_left (a b : DeltaFlags) : (a.union b).contains a = true := by
  rw [contains_iff]
  apply UInt8.eq_of_toBitVec_eq
  show (a.bits.toBitVec ||| b.bits.toBitVec) &&& a.bits.toBitVec = a.bits.toBitVec
  ext i hi
  simp only [BitVec.getElem_and, BitVec.getElem_or]
  cases a.bits.toBitVec[i] <;> simp

theorem contains_union_right (a b : DeltaFlags) : (a.union b).contains b = true := by
  have hcomm : a.union b = b.union a := congrArg DeltaFlags.mk (UInt8.or_comm _ _)
  rw [hcomm]
  exact contains_union_left b a

theorem contains_none (c : DeltaFlags) : c.contains .none = true :=
  contains_iff.mpr UInt8.and_zero

/-- A union is the least that contains both. -/
theorem contains_union :
    c.contains (a.union b) = true ↔ c.contains a = true ∧ c.contains b = true := by
  constructor
  · intro h
    exact ⟨contains_trans h (contains_union_left a b), contains_trans h (contains_union_right a b)⟩
  · rintro ⟨ha, hb⟩
    rw [contains_iff] at ha hb ⊢
    have hdistrib : c.bits &&& (a.bits ||| b.bits) = c.bits &&& a.bits ||| c.bits &&& b.bits := by
      apply UInt8.eq_of_toBitVec_eq
      show c.bits.toBitVec &&& (a.bits.toBitVec ||| b.bits.toBitVec) =
        c.bits.toBitVec &&& a.bits.toBitVec ||| c.bits.toBitVec &&& b.bits.toBitVec
      ext i hi
      simp only [BitVec.getElem_and, BitVec.getElem_or, Bool.and_or_distrib_left]
    calc c.bits &&& (a.bits ||| b.bits)
        = c.bits &&& a.bits ||| c.bits &&& b.bits := hdistrib
      _ = a.bits ||| b.bits := by rw [ha, hb]

/-- What contains a flag is not empty. -/
theorem isEmpty_of_contains (h : a.contains b = true) (hb : b.isEmpty = false) :
    a.isEmpty = false := by
  rw [isEmpty, decide_eq_false_iff_not] at hb ⊢
  intro ha
  apply hb
  rw [contains_iff, ha] at h
  show b = ⟨0⟩
  have hzero : (0 : UInt8) &&& b.bits = b.bits := h
  rw [UInt8.zero_and] at hzero
  rw [hzero]

end DeltaFlags

namespace ProofTree

open DeltaFlags

variable {t p q : ProofTree} {n m : NodeId}

/-! ## Records -/

/-- Flags that contain a union over records contain each of them. -/
theorem contains_foldl_iff {records : List Record} {flags c : DeltaFlags} :
    c.contains (records.foldl (fun acc r => acc.union r.2) flags) = true ↔
      c.contains flags = true ∧ ∀ r ∈ records, c.contains r.2 = true := by
  induction records generalizing flags with
  | nil => exact ⟨fun h => ⟨h, fun r hr => absurd hr List.not_mem_nil⟩, And.left⟩
  | cons r rest ih => rw [List.foldl_cons, ih, contains_union, List.forall_mem_cons, and_assoc]

/-- The flags recorded for a node are the union of its records. -/
theorem contains_recordedFlags_iff {records : List Record} {c : DeltaFlags} :
    c.contains (recordedFlags records n) = true ↔
      ∀ flags, (n, flags) ∈ records → c.contains flags = true := by
  rw [recordedFlags, contains_foldl_iff]
  constructor
  · rintro ⟨-, h⟩ flags hmem
    exact h (n, flags) (List.mem_filter.mpr ⟨hmem, decide_eq_true rfl⟩)
  · intro h
    refine ⟨contains_none c, ?_⟩
    rintro ⟨m, flags⟩ hmem
    obtain ⟨hrecord, hm⟩ := List.mem_filter.mp hmem
    obtain rfl : m = n := of_decide_eq_true hm
    exact h flags hrecord

/-- The flags of a record are among those recorded for its node. -/
theorem contains_recordedFlags {records : List Record} {flags : DeltaFlags}
    (h : (n, flags) ∈ records) : (recordedFlags records n).contains flags = true :=
  contains_recordedFlags_iff.mp (contains_refl _) flags h

/-- More records take no flag away. -/
theorem contains_recordedFlags_append (records more : List Record) (n : NodeId) :
    (recordedFlags (records ++ more) n).contains (recordedFlags records n) = true := by
  rw [contains_recordedFlags_iff]
  intro flags h
  exact contains_recordedFlags (List.mem_append_left more h)

/-- A node that is not recorded has no flags. -/
theorem recordedFlags_of_not_recorded {records : List Record} (h : isRecorded records n = false) :
    recordedFlags records n = .none := by
  have hnone : (records.filter fun r => r.1 = n) = [] := by
    rw [List.filter_eq_nil_iff]
    exact List.any_eq_false.mp h
  rw [recordedFlags, hnone]
  rfl

/-! ## Faces -/

/-- What a node shows of itself in its tree. -/
structure Face where
  parent : Option NodeId
  rule : Option Rule
  children : List NodeId
  comment : String
  confidence : Confidence

/-- The face of the node at the top, below the given parent. -/
def face (parent : Option NodeId) (t : ProofTree) : Face where
  parent := parent
  rule := t.rule?
  children := t.children.map id
  comment := t.comment
  confidence := t.confidence

/-- The face of a node of the tree. -/
def face? (t : ProofTree) (n : NodeId) : Option Face := (t.find? n).map (face (t.parent? n))

/-- The flags say what differs between two faces of a node, which has the
    same parent in both: `RULE` and `CHILDREN` for a rule or children,
    `COMMENT` for a comment, any flag for a level. -/
structure Told (flags : DeltaFlags) (old new : Face) : Prop where
  parent : new.parent = old.parent
  rule : (new.rule = old.rule ∧ new.children = old.children) ∨
    (flags.contains .rule = true ∧ flags.contains .children = true)
  comment : new.comment = old.comment ∨ flags.contains .comment = true
  confidence : new.confidence = old.confidence ∨ flags.isEmpty = false

namespace Told

variable {flags flags' : DeltaFlags} {a b c : Face}

/-- What does not change is told by any flags. -/
theorem refl (flags : DeltaFlags) (a : Face) : Told flags a a :=
  ⟨rfl, .inl ⟨rfl, rfl⟩, .inl rfl, .inl rfl⟩

theorem mono (h : Told flags a b) (hflags : flags'.contains flags = true) : Told flags' a b where
  parent := h.parent
  rule := h.rule.imp_right fun hboth =>
    ⟨contains_trans hflags hboth.1, contains_trans hflags hboth.2⟩
  comment := h.comment.imp_right (contains_trans hflags)
  confidence := h.confidence.imp_right (isEmpty_of_contains hflags)

/-- What is told in two steps is told of both together. -/
theorem trans (h : Told flags a b) (h' : Told flags b c) : Told flags a c where
  parent := h'.parent.trans h.parent
  rule := by
    rcases h'.rule with ⟨hrule', hchildren'⟩ | hsaid
    · rcases h.rule with ⟨hrule, hchildren⟩ | hsaid
      · exact .inl ⟨hrule'.trans hrule, hchildren'.trans hchildren⟩
      · exact .inr hsaid
    · exact .inr hsaid
  comment := by
    rcases h'.comment with hcomment' | hsaid
    · exact h.comment.imp_left hcomment'.trans
    · exact .inr hsaid
  confidence := by
    rcases h'.confidence with hconfidence' | hsaid
    · exact h.confidence.imp_left hconfidence'.trans
    · exact .inr hsaid

/-- No flag says that nothing differs. -/
theorem eq_of_none (h : Told .none a b) : b = a := by
  obtain ⟨hparent, hrule, hcomment, hconfidence⟩ := h
  have hrule := hrule.resolve_right fun hsaid => nomatch hsaid.1
  have hcomment := hcomment.resolve_right fun hsaid => nomatch hsaid
  have hconfidence := hconfidence.resolve_right fun hsaid => nomatch hsaid
  cases a
  cases b
  cases hparent
  cases hrule.1
  cases hrule.2
  cases hcomment
  cases hconfidence
  rfl

end Told

/-- Settling a node can change its level and nothing else on its face. -/
theorem told_settled {flags : DeltaFlags} (hflags : flags.isEmpty = false)
    (parent : Option NodeId) (t : ProofTree) : Told flags (t.face parent) (t.settled.face parent)
    where
  parent := rfl
  rule := .inl ⟨rule?_mapNode _ t, congrArg (List.map id) t.children_settled⟩
  comment := .inl (by cases t <;> rfl)
  confidence := .inr hflags

/-! ## The account of a tree -/

/-- The flags account for what the tree shows against the old faces.  A node
    that says that its children changed answers for all nodes below it. -/
inductive Accounted (old : NodeId → Option Face) (flags : NodeId → DeltaFlags) :
    Option NodeId → ProofTree → Prop
  | mk {parent : Option NodeId} {t : ProofTree} {before : Face} (was : old t.id = some before)
      (told : Told (flags t.id) before (t.face parent))
      (below : (flags t.id).contains .children = false →
        ∀ c ∈ t.children, Accounted old flags (some t.id) c) : Accounted old flags parent t

namespace Accounted

variable {old : NodeId → Option Face} {flags flags' : NodeId → DeltaFlags}
  {parent : Option NodeId}

/-- With more flags the account still holds. -/
theorem mono (hflags : ∀ n, (flags' n).contains (flags n) = true)
    (h : Accounted old flags parent t) : Accounted old flags' parent t := by
  induction h with
  | @mk parent t before was told below ih =>
      refine .mk was (told.mono (hflags t.id)) ?_
      intro hsilent
      exact ih (lacks_of_contains (hflags t.id) hsilent)

/-- A tree as it was needs no account. -/
theorem start (hids : t.ids.Nodup) (flags : NodeId → DeltaFlags) :
    Accounted t.face? flags none t := by
  -- from the top down, each subtree below the parent that it has in the tree
  suffices h : ∀ p parent, t.find? p.id = some p → t.parent? p.id = parent →
      Accounted t.face? flags parent p from h t none t.find?_id (parent?_id hids)
  intro p
  induction p using children_induct with
  | step p ih =>
      intro parent hfind hparent
      have was : t.face? p.id = some (p.face parent) := by rw [face?, hfind, hparent]; rfl
      refine .mk was (Told.refl _ _) ?_
      intro _ c hc
      refine ih c hc (some p.id) ?_ ?_
      · exact find?_trans hids hfind (find?_child (nodup_ids_find? hids hfind) hc)
      · exact (parent?_eq_some hids).mpr ⟨p, hfind, List.mem_map.mpr ⟨c, hc, rfl⟩⟩

end Accounted

/-! ## Edits -/

/-- The flags say all that a change does to the node that it is made on. -/
structure Declares (flags : DeltaFlags) (change : ProofTree → ProofTree) : Prop where
  some_flag : flags.isEmpty = false
  id : ∀ t, (change t).id = t.id
  told : ∀ parent t, Told flags (face parent t) (face parent (change t))
  below : flags.contains .children = false → ∀ t, (change t).children = t.children

/-- An edit among several trees is an edit of one of them. -/
theorem editAmong_eq_some {change : ProofTree → ProofTree} {ts : List ProofTree}
    {e : Edited (List ProofTree)} (h : editAmong n change ts = some e) :
    ∃ before c after d, ts = before ++ c :: after ∧ c.edit n change = some d ∧
      e = ⟨before ++ d.result :: after, d.moved, d.risen⟩ := by
  induction ts generalizing e with
  | nil => exact nomatch h
  | cons t rest ih =>
      rw [editAmong] at h
      split at h
      · rename_i d hd
        cases h
        exact ⟨[], t, rest, d, rfl, hd, rfl⟩
      · obtain ⟨e', he', rfl⟩ := Option.map_eq_some_iff.mp h
        obtain ⟨before, c, after, d, rfl, hd, rfl⟩ := ih he'
        exact ⟨t :: before, c, after, d, rfl, hd, rfl⟩

/-- Where an edit happens: at the top, or in one of the children. -/
theorem edit_cases {change : ProofTree → ProofTree} {e : Edited ProofTree}
    (h : t.edit n change = some e) :
    (t.id = n ∧ e = (change t).settle) ∨
      ∃ node rule skipped before c after d,
        t = .applied node rule skipped (before ++ c :: after) ∧ c.edit n change = some d ∧
        e = settleAbove node rule skipped ⟨before ++ d.result :: after, d.moved, d.risen⟩ := by
  -- the node is here, or the edit goes into the one child that has it
  cases t with
  | openNode node =>
      rw [edit] at h
      split at h
      · rename_i hid
        cases h
        exact .inl ⟨hid, rfl⟩
      · cases h
  | applied node rule skipped children =>
      rw [edit] at h
      split at h
      · rename_i hid
        cases h
        exact .inl ⟨hid, rfl⟩
      · obtain ⟨below, hamong, rfl⟩ := Option.map_eq_some_iff.mp h
        obtain ⟨before, c, after, d, rfl, hd, rfl⟩ := editAmong_eq_some hamong
        exact .inr ⟨node, rule, skipped, before, c, after, d, rfl, hd, rfl⟩

/-- What becomes of a node above an edit: its level may move, and then the
    node is among those that are recorded. -/
theorem settleAbove_cases (node : Node) (rule : Rule) (skipped : SkippedActions)
    (below : Edited (List ProofTree)) :
    (∀ a ∈ below.risen, a ∈ (settleAbove node rule skipped below).risen) ∧
      ((settleAbove node rule skipped below).result = .applied node rule skipped below.result ∨
        ((settleAbove node rule skipped below).result =
            (ProofTree.applied node rule skipped below.result).settled ∧
          node.id ∈ (settleAbove node rule skipped below).risen)) := by
  rw [settleAbove]
  by_cases hb : below.moved = true
  · rw [if_pos hb]
    dsimp only
    rw [settle]
    split
    · exact ⟨fun a ha => ha, .inl rfl⟩
    · refine ⟨fun a ha => List.mem_append_left _ ha, .inr ⟨rfl, ?_⟩⟩
      exact List.mem_append_right _ List.mem_cons_self
  · rw [if_neg hb]
    exact ⟨fun a ha => ha, .inl rfl⟩

section Edit

variable {old : NodeId → Option Face} {flags flags' : NodeId → DeltaFlags} {made : DeltaFlags}
  {change : ProofTree → ProofTree} {e : Edited ProofTree} {parent : Option NodeId}

/-- An edit keeps the handle at the top. -/
theorem id_edit (hmade : Declares made change) (he : t.edit n change = some e) :
    e.result.id = t.id := by
  rcases edit_cases he with ⟨-, rfl⟩ | ⟨node, rule, skipped, before, c, after, d, rfl, -, rfl⟩
  · rw [settle_result, id_settled, hmade.id]
  · rcases (settleAbove_cases node rule skipped ⟨before ++ d.result :: after, _, _⟩).2 with
      hresult | ⟨hresult, -⟩
    · rw [hresult]; rfl
    · rw [hresult, id_settled]; rfl

namespace Accounted

/-- At the node itself: the flags of the change answer for it, and for all
    below if the change says so. -/
theorem changed (hmade : Declares made change)
    (hflags : ∀ m, (flags' m).contains (flags m) = true)
    (htop : (flags' t.id).contains made = true) (h : Accounted old flags parent t) :
    Accounted old flags' parent (change t).settled := by
  have hid : (change t).settled.id = t.id := ((change t).id_settled).trans (hmade.id t)
  obtain ⟨was, told, below⟩ := h.mono hflags
  refine .mk (hid ▸ was) ?_ ?_
  · rw [hid]
    have hsome := isEmpty_of_contains htop hmade.some_flag
    exact (told.trans ((hmade.told parent t).mono htop)).trans (told_settled hsome _ _)
  · rw [hid, children_settled]
    intro hsilent
    -- a change that leaves `CHILDREN` out leaves the children as they are
    rw [hmade.below (lacks_of_contains htop hsilent) t]
    exact below hsilent

/-- At a node above the edit: only its level can have moved, and the children
    are known by the same handles. -/
theorem above {node : Node} {rule : Rule} {skipped : SkippedActions} {before after : List ProofTree}
    {c c' : ProofTree} (hflags : ∀ m, (flags' m).contains (flags m) = true) (hid : c'.id = c.id)
    (hc : ∀ parent, Accounted old flags parent c → Accounted old flags' parent c')
    (hresult : t = .applied node rule skipped (before ++ c' :: after) ∨
      (t = (ProofTree.applied node rule skipped (before ++ c' :: after)).settled ∧
        (flags' node.id).isEmpty = false))
    (h : Accounted old flags parent (.applied node rule skipped (before ++ c :: after))) :
    Accounted old flags' parent t := by
  have hface : face parent (.applied node rule skipped (before ++ c' :: after)) =
      face parent (.applied node rule skipped (before ++ c :: after)) := by
    have hids : (before ++ c' :: after).map ProofTree.id =
        (before ++ c :: after).map ProofTree.id := by
      rw [List.map_append, List.map_append, List.map_cons, List.map_cons, hid]
    show Face.mk _ _ ((before ++ c' :: after).map ProofTree.id) _ _ = _
    rw [hids]
    rfl
  obtain ⟨was, told, below⟩ := h
  rw [← hface] at told
  -- the children: one is changed, the others stay
  have hbelow : (flags' node.id).contains .children = false →
      ∀ d ∈ before ++ c' :: after, Accounted old flags' (some node.id) d := by
    intro hsilent d hd
    have hold := below (lacks_of_contains (hflags node.id) hsilent)
    rcases List.mem_append.mp hd with hd | hd
    · exact (hold d (List.mem_append_left _ hd)).mono hflags
    · rcases List.mem_cons.mp hd with rfl | hd
      · exact hc _ (hold c (List.mem_append_right _ List.mem_cons_self))
      · exact (hold d (List.mem_append_right _ (List.mem_cons_of_mem _ hd))).mono hflags
  have told' := told.mono (hflags node.id)
  rcases hresult with rfl | ⟨rfl, hsome⟩
  · exact .mk was told' hbelow
  · refine .mk (by rw [id_settled]; exact was) ?_ ?_
    · rw [id_settled]
      exact told'.trans (told_settled hsome _ _)
    · rw [id_settled, children_settled]
      exact hbelow

/-- An edit keeps the account, if its flags are recorded on the node and a
    flag on each node above whose level moved. -/
theorem edit (hmade : Declares made change) (hflags : ∀ m, (flags' m).contains (flags m) = true)
    (hnode : (flags' n).contains made = true) (he : t.edit n change = some e)
    (hrisen : ∀ a ∈ e.risen, (flags' a).isEmpty = false) (h : Accounted old flags parent t) :
    Accounted old flags' parent e.result := by
  induction t using children_induct generalizing e parent with
  | step t ih =>
      rcases edit_cases he with
        ⟨hid, rfl⟩ | ⟨node, rule, skipped, before, c, after, d, rfl, hd, rfl⟩
      · rw [settle_result]
        exact h.changed hmade hflags (hid ▸ hnode)
      · obtain ⟨hkept, hresult⟩ :=
          settleAbove_cases node rule skipped ⟨before ++ d.result :: after, d.moved, d.risen⟩
        refine h.above hflags (id_edit hmade hd) ?_
          (hresult.imp_right fun hmoved => ⟨hmoved.1, hrisen _ hmoved.2⟩)
        intro parent hc
        exact ih c (List.mem_append_right _ List.mem_cons_self) hd
          (fun a ha => hrisen a (hkept a ha)) hc

end Accounted

end Edit

/-! ## The changes that a forest makes -/

/-- A rule that is put on a node or taken off it, with all below. -/
theorem declares_rule {change : ProofTree → ProofTree} (hnode : ∀ t, (change t).node = t.node) :
    Declares Forest.ruleFlags change where
  some_flag := rfl
  id t := congrArg Node.id (hnode t)
  told _ t :=
    ⟨rfl, .inr ⟨rfl, rfl⟩, .inl (congrArg Node.comment (hnode t)),
      .inl (congrArg Node.confidence (hnode t))⟩
  below hsilent := nomatch hsilent

/-- Setting a comment changes the comment and nothing else. -/
theorem declares_comment (comment : String) :
    Declares .comment fun p => p.mapNode fun n => { n with comment := comment } where
  some_flag := rfl
  id t := by cases t <;> rfl
  told parent t :=
    ⟨rfl, .inl ⟨rule?_mapNode _ t, congrArg (List.map ProofTree.id) (children_mapNode _ t)⟩,
      .inr rfl, .inl (by cases t <;> rfl)⟩
  below _ t := children_mapNode _ t

/-! ## What an account says of a node -/

/-- The node `a` is above the node `n` in the tree. -/
def Above (t : ProofTree) (a n : NodeId) : Prop :=
  ∃ p, t.find? a = some p ∧ ∃ c ∈ p.children, n ∈ c.ids

/-- The flags explain what became of a node: they say what differs on it, or
    a node above it says that its children changed. -/
def Explained (old new : ProofTree) (flags : NodeId → DeltaFlags) (n : NodeId) : Prop :=
  (∃ a b, old.face? n = some a ∧ new.face? n = some b ∧ Told (flags n) a b) ∨
    ∃ a, new.Above a n ∧ (flags a).contains .children = true

/-- Every node of a tree that is accounted for is explained. -/
theorem Accounted.explained {flags : NodeId → DeltaFlags} (hids : t.ids.Nodup)
    (h : Accounted q.face? flags none t) (hn : n ∈ t.ids) : Explained q t flags n := by
  -- the account is of a subtree, whose place in the tree has to come along
  suffices hsub : ∀ parent p, Accounted q.face? flags parent p → t.find? p.id = some p →
      t.parent? p.id = parent → n ∈ p.ids → Explained q t flags n from
    hsub none t h t.find?_id (parent?_id hids) hn
  clear h hn
  intro parent p h
  induction h with
  | @mk parent p before was told below ih =>
      intro hfind hparent hn
      rw [ids_eq, List.mem_cons, List.mem_flatMap] at hn
      rcases hn with rfl | ⟨c, hc, hn⟩
      · refine .inl ⟨before, p.face parent, was, ?_, told⟩
        rw [face?, hfind, hparent]
        rfl
      -- a node that says its children changed speaks for all that is below
      · cases hsaid : (flags p.id).contains .children with
        | true => exact .inr ⟨p.id, ⟨p, hfind, c, hc, hn⟩, hsaid⟩
        | false =>
            refine ih hsaid c hc ?_ ?_ hn
            · exact find?_trans hids hfind (find?_child (nodup_ids_find? hids hfind) hc)
            · exact (parent?_eq_some hids).mpr ⟨p, hfind, List.mem_map.mpr ⟨c, hc, rfl⟩⟩

/-- Only the flags of the nodes of the tree count. -/
theorem Explained.congr {flags flags' : NodeId → DeltaFlags} (h : Explained p q flags n)
    (hflags : ∀ m ∈ q.ids, flags' m = flags m) (hn : n ∈ q.ids) : Explained p q flags' n := by
  rcases h with ⟨a, b, ha, hb, told⟩ | ⟨a, habove, hsaid⟩
  · refine .inl ⟨a, b, ha, hb, ?_⟩
    rw [hflags n hn]
    exact told
  · refine .inr ⟨a, habove, ?_⟩
    obtain ⟨r, hfind, -⟩ := habove
    rw [hflags a (mem_ids_of_find? hfind)]
    exact hsaid

/-- Without a flag nothing became of a node. -/
theorem Explained.face_eq {flags : NodeId → DeltaFlags} (h : Explained p q flags n)
    (hnone : ∀ m ∈ q.ids, flags m = .none) (hn : n ∈ q.ids) : q.face? n = p.face? n := by
  rcases h with ⟨a, b, ha, hb, told⟩ | ⟨a, ⟨r, hfind, -⟩, hsaid⟩
  · rw [hnone n hn] at told
    rw [ha, hb, told.eq_of_none]
  · rw [hnone a (mem_ids_of_find? hfind)] at hsaid
    exact nomatch hsaid

/-! ## Deltas -/

section Delta

variable {records : List Record}

/-- Deltas of siblings, one by one. -/
theorem deltaAmong_eq (records : List Record) (ts : List ProofTree) :
    deltaAmong records ts = ts.filterMap (delta? records) := by
  induction ts with
  | nil => rfl
  | cons t rest ih =>
      rw [deltaAmong, ih, List.filterMap_cons]
      cases delta? records t with
      | none => rfl
      | some d => rfl

/-- The delta of a node is made from those of its children. -/
theorem delta?_eq (records : List Record) (t : ProofTree) :
    t.delta? records = deltaAt records t.id (t.children.filterMap (delta? records)) := by
  cases t with
  | openNode node => rfl
  | applied node rule skipped children => rw [delta?, deltaAmong_eq]; rfl

/-- Looking for a node among siblings, one by one. -/
theorem findAmong?_delta_eq (n : NodeId) (ds : List NodeDelta) :
    NodeDelta.findAmong? n ds = ds.findSome? (NodeDelta.find? n) := by
  induction ds with
  | nil => rfl
  | cons d rest ih =>
      rw [NodeDelta.findAmong?, ih, List.findSome?_cons]
      cases NodeDelta.find? n d with
      | none => rfl
      | some found => rfl

/-- Every node of a delta has the flags that are recorded for it. -/
theorem flags_of_delta? {d found : NodeDelta} (h : t.delta? records = some d)
    (hfound : d.find? n = some found) : found.flags = recordedFlags records n := by
  induction t using children_induct generalizing d with
  | step t ih =>
      rw [delta?_eq, deltaAt] at h
      split at h
      · cases h
        rw [NodeDelta.find?, findAmong?_delta_eq] at hfound
        split at hfound
        · rename_i hid
          cases hfound
          rw [NodeDelta.flags, hid]
        · obtain ⟨d, hd, hfound⟩ := List.exists_of_findSome?_eq_some hfound
          obtain ⟨c, hc, hdelta⟩ := List.mem_filterMap.mp hd
          exact ih c hc hdelta hfound
      · exact nomatch h

/-- A recorded node of the tree is in the delta. -/
theorem exists_delta? (hn : n ∈ t.ids) (hrecorded : isRecorded records n = true) :
    ∃ d, t.delta? records = some d ∧ (d.find? n).isSome = true := by
  induction t using children_induct with
  | step t ih =>
      rw [ids_eq, List.mem_cons, List.mem_flatMap] at hn
      rw [delta?_eq, deltaAt]
      rcases hn with rfl | ⟨c, hc, hn⟩
      · rw [hrecorded, Bool.true_or, if_pos rfl]
        refine ⟨_, rfl, ?_⟩
        rw [NodeDelta.find?, if_pos rfl]
        rfl
      · obtain ⟨d, hd, hfound⟩ := ih c hc hn
        have hmem : d ∈ t.children.filterMap (delta? records) :=
          List.mem_filterMap.mpr ⟨c, hc, hd⟩
        -- a child with a delta keeps its parent in the layout
        have hsome : (t.children.filterMap (delta? records)).isEmpty = false := by
          rw [List.isEmpty_eq_false_iff]
          exact List.ne_nil_of_mem hmem
        rw [hsome, Bool.not_false, Bool.or_true, if_pos rfl]
        refine ⟨_, rfl, ?_⟩
        rw [NodeDelta.find?, findAmong?_delta_eq]
        split
        · rfl
        · exact List.findSome?_isSome_iff.mpr ⟨d, hmem, hfound⟩

end Delta

end ProofTree

/-! ## Trees with their records -/

namespace Tree

open ProofTree (Face Accounted Declares recordedFlags isRecorded)

variable {old : NodeId → Option Face} {t : Tree}

/-- The records of the tree account for what it shows against the old
    faces. -/
def Accounts (old : NodeId → Option Face) (t : Tree) : Prop :=
  Accounted old (recordedFlags t.records) none t.proof

/-- An edit is added to the account under the flags that it declares. -/
theorem Accounts.editNode {flags : DeltaFlags} {change : ProofTree → ProofTree}
    (hmade : Declares flags change) (n : NodeId) (h : t.Accounts old) :
    (t.editNode n flags change).Accounts old := by
  rw [Tree.editNode]
  split
  · rename_i e he
    refine Accounted.edit hmade (ProofTree.contains_recordedFlags_append _ _) ?_ he ?_ h
    · exact ProofTree.contains_recordedFlags
        (List.mem_append_right _ List.mem_cons_self)
    · intro a ha
      refine DeltaFlags.isEmpty_of_contains (b := .confidence) ?_ rfl
      refine ProofTree.contains_recordedFlags (List.mem_append_right _ (List.mem_cons_of_mem _ ?_))
      exact List.mem_map.mpr ⟨a, ha, rfl⟩
  · exact h

/-- A delta shows the flags that are recorded, node by node. -/
theorem flagsOf_delta? {delta : TreeDelta} {n : NodeId} (h : t.delta? = some delta)
    (hn : n ∈ t.proof.ids) : delta.flagsOf n = recordedFlags t.records n := by
  obtain ⟨d, hd, rfl⟩ := Option.map_eq_some_iff.mp h
  rw [TreeDelta.flagsOf]
  split
  · rename_i found hfound
    exact ProofTree.flags_of_delta? hd hfound
  · rename_i hfound
    refine (ProofTree.recordedFlags_of_not_recorded ?_).symm
    rw [← Bool.not_eq_true]
    intro hrecorded
    obtain ⟨d', hd', hsome⟩ := ProofTree.exists_delta? hn hrecorded
    cases hd.symm.trans hd'
    rw [show d.find? n = none from hfound] at hsome
    exact nomatch hsome

/-- Without a delta nothing is recorded in the tree. -/
theorem recordedFlags_of_no_delta {n : NodeId} (h : t.delta? = none) (hn : n ∈ t.proof.ids) :
    recordedFlags t.records n = .none := by
  refine ProofTree.recordedFlags_of_not_recorded ?_
  rw [← Bool.not_eq_true]
  intro hrecorded
  obtain ⟨d, hd, -⟩ := ProofTree.exists_delta? hn hrecorded
  rw [delta?, hd] at h
  exact nomatch h

end Tree

end SequentProver
