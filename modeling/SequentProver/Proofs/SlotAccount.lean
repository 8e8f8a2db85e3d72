import SequentProver.Forest.Slots
import SequentProver.Proofs.TreeShape

/-! # The account of slots

    `s.Holds ids` says that the slots are accounted for: the handles `ids`
    are in use, each under the current generation of its slot, and all
    other slots are free.  Handing out, giving back and copying keep the
    account, so a handle that is handed out is never one that is in use. -/

namespace SequentProver.Slots

/-- The handles `ids`, and no others, are in use. -/
structure Holds (s : Slots) (ids : List NodeId) : Prop where
  nodup : ids.Nodup
  current : ∀ id ∈ ids, s.generations[id.index]? = some id.generation
  not_free : ∀ id ∈ ids, id.index ∉ s.free
  free_nodup : s.free.Nodup
  free_lt : ∀ i ∈ s.free, i < s.generations.length
  covered : ∀ i < s.generations.length, i ∈ s.free ∨ ∃ id ∈ ids, id.index = i

variable {s : Slots} {ids : List NodeId}

/-- At the start nothing is in use. -/
theorem holds_empty : Holds {} [] where
  nodup := List.nodup_nil
  current _ h := nomatch h
  not_free _ h := nomatch h
  free_nodup := List.nodup_nil
  free_lt _ h := nomatch h
  covered _ h := nomatch h

/-- The order in which handles are listed does not matter. -/
theorem Holds.perm (h : s.Holds ids) {ids' : List NodeId} (hperm : ids.Perm ids') :
    s.Holds ids' where
  nodup := hperm.nodup_iff.mp h.nodup
  current id hid := h.current id (hperm.mem_iff.mpr hid)
  not_free id hid := h.not_free id (hperm.mem_iff.mpr hid)
  free_nodup := h.free_nodup
  free_lt := h.free_lt
  covered i hi := (h.covered i hi).imp_right fun ⟨id, hid, heq⟩ => ⟨id, hperm.mem_iff.mp hid, heq⟩

/-- A handle in use is determined by its slot. -/
theorem Holds.eq_of_index (h : s.Holds ids) {a b : NodeId} (ha : a ∈ ids) (hb : b ∈ ids)
    (heq : a.index = b.index) : a = b := by
  have hgen : some a.generation = some b.generation := by
    rw [← h.current a ha, ← h.current b hb, heq]
  cases a
  cases b
  cases heq
  cases hgen
  rfl

/-! ## Handing out and giving back -/

/-- A handle handed out comes on top of those in use. -/
theorem Holds.alloc (h : s.Holds ids) : s.alloc.2.Holds (s.alloc.1 :: ids) := by
  rw [Slots.alloc]
  split
  · -- the slot given back last
    rename_i index rest hfree
    have hlt : index < s.generations.length := h.free_lt index (hfree ▸ List.mem_cons_self)
    have hnodup := h.free_nodup
    rw [hfree, List.nodup_cons] at hnodup
    have hnew : ∀ id ∈ ids, id.index ≠ index := fun id hid heq =>
      h.not_free id hid (by rw [hfree, heq]; exact List.mem_cons_self)
    refine ⟨List.nodup_cons.mpr ⟨fun hmem => hnew _ hmem rfl, h.nodup⟩, ?_, ?_, hnodup.2, ?_, ?_⟩
    · refine List.forall_mem_cons.mpr ⟨?_, h.current⟩
      show s.generations[index]? = some (s.generations.getD index 0)
      rw [List.getD_eq_getElem?_getD, List.getElem?_eq_getElem hlt, Option.getD_some]
    · refine List.forall_mem_cons.mpr ⟨hnodup.1, fun id hid hmem => h.not_free id hid ?_⟩
      rw [hfree]
      exact List.mem_cons_of_mem _ hmem
    · exact fun i hi => h.free_lt i (hfree ▸ List.mem_cons_of_mem _ hi)
    · intro i hi
      rcases h.covered i hi with hmem | ⟨id, hid, heq⟩
      · rw [hfree] at hmem
        rcases List.mem_cons.mp hmem with rfl | hmem
        · exact Or.inr ⟨_, List.mem_cons_self, rfl⟩
        · exact Or.inl hmem
      · exact Or.inr ⟨id, List.mem_cons_of_mem _ hid, heq⟩
  · -- a slot that was never used
    rename_i hfree
    have hlt : ∀ id ∈ ids, id.index < s.generations.length := fun id hid =>
      (List.getElem?_eq_some_iff.mp (h.current id hid)).1
    have hnew : (⟨s.generations.length, 0⟩ : NodeId) ∉ ids := fun hmem =>
      Nat.lt_irrefl _ (hlt _ hmem)
    refine ⟨List.nodup_cons.mpr ⟨hnew, h.nodup⟩, ?_, ?_, h.free_nodup, ?_, ?_⟩
    · refine List.forall_mem_cons.mpr ⟨List.getElem?_concat_length, fun id hid => ?_⟩
      show (s.generations ++ [0])[id.index]? = some id.generation
      rw [List.getElem?_append_left (hlt id hid)]
      exact h.current id hid
    · intro id _
      show id.index ∉ s.free
      rw [hfree]
      exact List.not_mem_nil
    · intro i hi
      rw [hfree] at hi
      exact nomatch hi
    · intro i hi
      have hi' : i < s.generations.length + 1 := by
        simpa only [List.length_append, List.length_singleton] using hi
      rcases Nat.lt_succ_iff_lt_or_eq.mp hi' with hi | rfl
      · exact (h.covered i hi).imp_right fun ⟨id, hid, heq⟩ =>
          ⟨id, List.mem_cons_of_mem _ hid, heq⟩
      · exact Or.inr ⟨_, List.mem_cons_self, rfl⟩

/-- A handle given back is no longer in use. -/
theorem Holds.release {id : NodeId} (h : s.Holds (id :: ids)) : (s.release id).Holds ids := by
  obtain ⟨hnotin, hnodup⟩ := List.nodup_cons.mp h.nodup
  -- no other handle in use has the index that is given back
  have hne : ∀ a ∈ ids, a.index ≠ id.index := fun a ha heq =>
    hnotin (h.eq_of_index (List.mem_cons_of_mem _ ha) List.mem_cons_self heq ▸ ha)
  have hlt : id.index < s.generations.length :=
    (List.getElem?_eq_some_iff.mp (h.current id List.mem_cons_self)).1
  refine ⟨hnodup, ?_, ?_, ?_, ?_, ?_⟩
  · intro a ha
    show (s.generations.modify id.index (· + 1))[a.index]? = _
    rw [List.getElem?_modify_ne _ _ (Ne.symm (hne a ha))]
    exact h.current a (List.mem_cons_of_mem _ ha)
  · intro a ha hmem
    rcases List.mem_cons.mp hmem with heq | hmem
    · exact hne a ha heq
    · exact h.not_free a (List.mem_cons_of_mem _ ha) hmem
  · exact List.nodup_cons.mpr ⟨h.not_free id List.mem_cons_self, h.free_nodup⟩
  · show ∀ i ∈ id.index :: s.free, i < (s.generations.modify id.index (· + 1)).length
    rw [List.length_modify]
    exact List.forall_mem_cons.mpr ⟨hlt, h.free_lt⟩
  -- every slot is free or in use, and this one has changed sides
  · intro i hi
    rw [Slots.release, List.length_modify] at hi
    rcases h.covered i hi with hmem | ⟨a, ha, heq⟩
    · exact Or.inl (List.mem_cons_of_mem _ hmem)
    · rcases List.mem_cons.mp ha with rfl | ha
      · exact Or.inl (heq ▸ List.mem_cons_self)
      · exact Or.inr ⟨a, ha, heq⟩

/-- Handles that are given back are not in use any more. -/
theorem Holds.releaseAll {gone : List NodeId} (h : s.Holds (gone ++ ids)) :
    (s.releaseAll gone).Holds ids := by
  -- the last handle of the list is given back first
  induction gone generalizing ids with
  | nil => exact h
  | cons id rest ih =>
      have hrest : (s.releaseAll rest).Holds (id :: ids) :=
        ih (h.perm List.perm_middle.symm)
      exact hrest.release

/-! ## Counting -/

/-- The slots in use and the free ones are all slots, each once. -/
theorem Holds.perm_range (h : s.Holds ids) :
    (ids.map NodeId.index ++ s.free).Perm (List.range s.generations.length) := by
  have hindex : (ids.map NodeId.index).Nodup :=
    h.nodup.map_on fun a ha b hb heq => h.eq_of_index ha hb heq
  rw [List.perm_ext_iff_of_nodup ?_ List.nodup_range]
  · intro i
    rw [List.mem_append, List.mem_map, List.mem_range]
    constructor
    · rintro (⟨id, hid, rfl⟩ | hfree)
      · exact (List.getElem?_eq_some_iff.mp (h.current id hid)).1
      · exact h.free_lt i hfree
    · exact fun hi => (h.covered i hi).symm
  · rw [List.nodup_append]
    refine ⟨hindex, h.free_nodup, ?_⟩
    rintro i hi j hj rfl
    obtain ⟨id, hid, rfl⟩ := List.mem_map.mp hi
    exact h.not_free id hid hj

/-- The slots in use are counted right. -/
theorem Holds.inUse (h : s.Holds ids) : s.inUse = ids.length := by
  have hlength := h.perm_range.length_eq
  rw [List.length_append, List.length_map, List.length_range] at hlength
  rw [Slots.inUse]
  omega

/-- A slot is free if it is not in use. -/
theorem Holds.mem_free_iff (h : s.Holds ids) {i : Nat} :
    i ∈ s.free ↔ i < s.generations.length ∧ ∀ id ∈ ids, id.index ≠ i := by
  constructor
  · intro hi
    exact ⟨h.free_lt i hi, fun id hid heq => h.not_free id hid (heq ▸ hi)⟩
  · rintro ⟨hi, hnot⟩
    refine (h.covered i hi).resolve_right ?_
    rintro ⟨id, hid, heq⟩
    exact hnot id hid heq

/-! ## Whole trees -/

/-- Open nodes get handles that were not in use. -/
theorem Holds.openNodes (h : s.Holds ids) (sequents : List Sequent) :
    (s.openNodes sequents).2.Holds ((s.openNodes sequents).1.flatMap ProofTree.ids ++ ids) := by
  induction sequents generalizing s ids with
  | nil => exact h
  | cons sequent rest ih => exact (ih h.alloc).perm List.perm_middle

/-- Nodes are opened on the sequents in their order. -/
theorem openNodes_sequents (s : Slots) (sequents : List Sequent) :
    (s.openNodes sequents).1.map ProofTree.sequent = sequents := by
  induction sequents generalizing s with
  | nil => rfl
  | cons sequent rest ih =>
      show sequent :: (s.alloc.2.openNodes rest).1.map _ = _
      rw [ih]

/-- The nodes opened are open, without a comment and not attempted. -/
theorem openNodes_eq (s : Slots) (sequents : List Sequent) :
    ∀ t ∈ (s.openNodes sequents).1,
      ∃ id, ∃ sequent ∈ sequents, t = .openNode { id := id, sequent := sequent } := by
  induction sequents generalizing s with
  | nil => exact fun t ht => nomatch ht
  | cons sequent rest ih =>
      intro t ht
      rcases List.mem_cons.mp ht with rfl | ht
      · exact ⟨_, sequent, List.mem_cons_self, rfl⟩
      · obtain ⟨id, sequent', hmem, heq⟩ := ih s.alloc.2 t ht
        exact ⟨id, sequent', List.mem_cons_of_mem _ hmem, heq⟩

/-- A copy gets handles that were not in use. -/
theorem Holds.copy (t : ProofTree) (h : s.Holds ids) :
    (s.copy t).2.Holds ((s.copy t).1.ids ++ ids) := by
  induction t generalizing s ids with
  | openNode node => exact h.alloc
  | applied node rule skipped children ih =>
      -- among the children, each copy starts from the slots that the one before left
      have hamong : ∀ {s : Slots} {ids : List NodeId}, s.Holds ids →
          (s.copyAmong children).2.Holds
            ((s.copyAmong children).1.flatMap ProofTree.ids ++ ids) := by
        intro s ids h
        induction children generalizing s ids with
        | nil => exact h
        | cons c rest ihrest =>
            have hc := ih c List.mem_cons_self h
            have hrest := ihrest (fun d hd => ih d (List.mem_cons_of_mem _ hd)) hc
            refine hrest.perm ?_
            rw [copyAmong, List.flatMap_cons, ← List.append_assoc]
            exact List.perm_append_comm.append_right ids
      refine (hamong h.alloc).perm ?_
      rw [Slots.copy, ProofTree.ids, ProofTree.idsAmong_eq]
      exact List.perm_middle

/-- A copy differs in its handles only: what does not look at them, nor
    beyond the sequents and levels of the children, holds of it too. -/
theorem everywhere_copy {P : ProofTree → Prop}
    (hopen : ∀ node id, P (.openNode node) → P (.openNode { node with id := id }))
    (happlied : ∀ node id rule skipped children children',
      children'.map ProofTree.sequent = children.map ProofTree.sequent →
      children'.map ProofTree.confidence = children.map ProofTree.confidence →
      P (.applied node rule skipped children) →
      P (.applied { node with id := id } rule skipped children'))
    (s : Slots) {t : ProofTree} (h : t.Everywhere P) :
    (s.copy t).1.Everywhere P ∧ (s.copy t).1.sequent = t.sequent ∧
      (s.copy t).1.confidence = t.confidence := by
  induction t generalizing s with
  | openNode node => exact ⟨.mk (hopen node _ h.top) (fun c hc => nomatch hc), rfl, rfl⟩
  | applied node rule skipped children ih =>
      have hchildren : ∀ c ∈ children, c.Everywhere P := h.child
      -- as above, for what the copies carry instead of their handles
      have hamong : ∀ s : Slots, (∀ c ∈ (s.copyAmong children).1, c.Everywhere P) ∧
          (s.copyAmong children).1.map ProofTree.sequent = children.map ProofTree.sequent ∧
          (s.copyAmong children).1.map ProofTree.confidence =
            children.map ProofTree.confidence := by
        clear h
        induction children with
        | nil => exact fun s => ⟨fun c hc => (nomatch hc), rfl, rfl⟩
        | cons c rest ihrest =>
            intro s
            obtain ⟨hc, hsequent, hconfidence⟩ :=
              ih c List.mem_cons_self s (hchildren c List.mem_cons_self)
            obtain ⟨hrest, hsequents, hconfidences⟩ :=
              ihrest (fun d hd => ih d (List.mem_cons_of_mem _ hd))
                (fun d hd => hchildren d (List.mem_cons_of_mem _ hd)) (s.copy c).2
            refine ⟨?_, ?_, ?_⟩
            · exact List.forall_mem_cons.mpr ⟨hc, hrest⟩
            · rw [copyAmong, List.map_cons, List.map_cons, hsequent, hsequents]
            · rw [copyAmong, List.map_cons, List.map_cons, hconfidence, hconfidences]
      obtain ⟨hall, hsequents, hconfidences⟩ := hamong s.alloc.2
      exact ⟨.mk (happlied _ _ _ _ _ _ hsequents hconfidences h.top) hall, rfl, rfl⟩

end SequentProver.Slots
