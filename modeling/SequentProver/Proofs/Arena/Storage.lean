import Mathlib.Logic.Function.Basic
import SequentProver.Proofs.Arena.Basic
import SequentProver.Proofs.SlotAccount

/-! # What an arena stores

    Every change of an arena is described by what it does to the account of
    slots and to what is stored under each handle; how the slots are laid out
    does not matter after this module.

    Route:
    1. equations of work that ends;
    2. `slots`, the account of slots, and `data?` after handing out, giving
       back and writing;
    3. `Tidy`, that free slots are empty, and `Rewrites`, a change of stored
       fields that leaves the slots alone. -/

namespace SequentProver.Arena

/-! ## Work that ends -/

namespace Work

variable {α β : Type} {a b : Arena} {w : Work α} {next : α → Work β}

/-- After an answer the work goes on with it. -/
theorem bind_ok {x : α} (h : w a = some (.ok x, b)) : (w >>= next) a = next x b := by
  show andThen w next a = _
  rw [andThen, h]

/-- After a refusal there is nothing more to do. -/
theorem bind_error {e : TreeError} (h : w a = some (.error e, b)) :
    (w >>= next) a = some (.error e, b) := by
  show andThen w next a = _
  rw [andThen, h]

/-- It does not matter how work is bracketed. -/
theorem bind_assoc {γ : Type} (w : Work α) (next : α → Work β) (last : β → Work γ) :
    (w >>= next) >>= last = w >>= fun x => next x >>= last := by
  funext a
  show andThen (andThen w next) last a = andThen w (fun x => andThen (next x) last) a
  rw [andThen, andThen, andThen]
  cases w a with
  | none => rfl
  | some result =>
      obtain ⟨answer, b⟩ := result
      cases answer <;> rfl

theorem ask_bind (look : Arena → α) (a : Arena) :
    (ask look >>= next) a = next (look a) a := rfl

theorem update_bind {next : Unit → Work β} (change : Arena → Arena) (a : Arena) :
    (update change >>= next) a = next () (change a) := rfl

theorem perform_bind (change : Arena → α × Arena) (a : Arena) :
    (perform change >>= next) a = next (change a).1 (change a).2 := rfl

/-- A given answer or refusal leaves the arena alone. -/
theorem orRefuse_apply (answer : Except TreeError α) (a : Arena) :
    orRefuse answer a = some (answer, a) := by
  cases answer <;> rfl

/-- A refusal that is taken for an answer is no refusal. -/
theorem attempt_of {answer : Except TreeError α} (h : w a = some (answer, b)) :
    w.attempt a = some (.ok answer, b) := by
  rw [attempt, h]
  rfl

end Work

variable {a b : Arena} {n m : NodeId} {d : NodeData}

/-! ## The account of slots -/

/-- The slots without what is stored in them. -/
def slots (a : Arena) : Slots := ⟨a.nodes.map Slot.generation, a.free⟩

theorem length_slots (a : Arena) : a.slots.generations.length = a.nodes.length :=
  List.length_map ..

/-- What is stored for a handle stands in its slot, under its generation. -/
theorem data?_eq_some : a.data? n = some d ↔ a.nodes[n.index]? = some ⟨n.generation, some d⟩ := by
  rw [data?]
  constructor
  · intro h
    split at h
    · rename_i slot hslot
      split at h
      · rename_i hgeneration
        cases slot with
        | mk generation data =>
            cases hgeneration
            cases h
            exact hslot
      · exact nomatch h
    · exact nomatch h
  · intro h
    rw [h]
    exact if_pos rfl

/-- The handle of a node is the current one of its slot. -/
theorem generation_of_data? (h : a.data? n = some d) :
    a.slots.generations[n.index]? = some n.generation := by
  rw [slots, List.getElem?_map, data?_eq_some.mp h]
  rfl

/-- Of one slot only one handle is in use. -/
theorem eq_of_index {e : NodeData} (hn : a.data? n = some d) (hm : a.data? m = some e)
    (h : n.index = m.index) : n = m := by
  have hgeneration : some n.generation = some m.generation := by
    rw [← generation_of_data? hn, ← generation_of_data? hm, h]
  cases n
  cases m
  cases h
  cases hgeneration
  rfl

/-- Another generation of a slot in use is not in use. -/
theorem data?_of_index (hn : a.data? n = some d) (hm : m ≠ n) (h : m.index = n.index) :
    a.data? m = none := by
  cases hdata : a.data? m with
  | none => rfl
  | some e => exact absurd (eq_of_index hdata hn h) hm

/-- A slot that holds nothing has no node. -/
theorem data?_of_vacant {generation : Nat} (h : a.nodes[n.index]? = some ⟨generation, none⟩) :
    a.data? n = none := by
  rw [data?, h]
  exact ite_self _

/-- A change in the slot of one node. -/
theorem data?_eq_update {x : Option NodeData} (hhere : b.data? n = x)
    (hslot : ∀ m, m ≠ n → m.index = n.index → b.data? m = a.data? m)
    (helse : ∀ i, i ≠ n.index → b.nodes[i]? = a.nodes[i]?) :
    b.data? = Function.update a.data? n x := by
  funext m
  by_cases hm : m = n
  · rw [hm, Function.update_self, hhere]
  · rw [Function.update_of_ne hm]
    by_cases hindex : m.index = n.index
    · exact hslot m hm hindex
    · rw [data?, data?, helse m.index hindex]

/-! ## Writing -/

/-- Writing does not touch the slots. -/
theorem slots_put (a : Arena) (n : NodeId) (d : NodeData) : (a.put n d).slots = a.slots := by
  have hmap : (a.put n d).nodes.map Slot.generation = a.nodes.map Slot.generation := by
    refine List.ext_getElem? fun i => ?_
    rw [put, List.getElem?_map, List.getElem?_map, List.getElem?_modify]
    cases a.nodes[i]? with
    | none => rfl
    | some slot =>
        show some (if n.index = i then _ else slot).generation = _
        split <;> rfl
  rw [slots, hmap]
  rfl

/-- What is written is stored, and nothing else changes. -/
theorem data?_put {e : NodeData} (h : a.data? n = some e) (d : NodeData) :
    (a.put n d).data? = Function.update a.data? n (some d) := by
  have hput : (a.put n d).data? n = some d := by
    rw [data?_eq_some, put, List.getElem?_modify_eq, data?_eq_some.mp h]
    rfl
  refine data?_eq_update hput ?_ fun i hi => List.getElem?_modify_ne _ _ (Ne.symm hi)
  intro m hm hindex
  rw [data?_of_index h hm hindex, data?_of_index hput hm hindex]

/-- The other nodes keep their data. -/
theorem data?_put_of_ne {e : NodeData} {m : NodeId} (h : a.data? n = some e) (d : NodeData)
    (hne : m ≠ n) : (a.put n d).data? m = a.data? m := by
  rw [data?_put h, Function.update_of_ne hne]

/-! ## Handing out and giving back -/

/-- A new node in a slot that was never used. -/
theorem alloc_new (h : a.free = []) (d : NodeData) :
    (a.alloc d).1 = a.slots.alloc.1 ∧ (a.alloc d).2.slots = a.slots.alloc.2 ∧
      (a.alloc d).2.data? = Function.update a.data? (a.alloc d).1 (some d) := by
  have halloc : a.alloc d =
      (⟨a.nodes.length, 0⟩, { a with nodes := a.nodes ++ [⟨0, some d⟩], free := [] }) := by
    rw [alloc, h]
    rfl
  have hslots : a.slots.alloc = (⟨a.slots.generations.length, 0⟩,
      ⟨a.slots.generations ++ [0], a.free⟩) := by
    rw [Slots.alloc, slots, h]
  have hnew : data? { a with nodes := a.nodes ++ [⟨0, some d⟩], free := [] }
      ⟨a.nodes.length, 0⟩ = some d := data?_eq_some.mpr List.getElem?_concat_length
  rw [halloc, hslots]
  refine ⟨by rw [length_slots], ?_, data?_eq_update hnew ?_ ?_⟩
  · rw [slots, slots, List.map_append, h]
    rfl
  -- no old handle has the index of the new slot
  · intro m hm hindex
    rw [data?_of_index hnew hm hindex, data?, hindex, List.getElem?_eq_none (Nat.le_refl _)]
  · intro i hi
    rcases Nat.lt_or_gt_of_ne hi with hlt | hgt
    · exact List.getElem?_append_left hlt
    · rw [List.getElem?_eq_none (Nat.le_of_lt hgt)]
      exact List.getElem?_eq_none (by rw [List.length_append]; exact hgt)

/-- Filling a slot leaves all generations as they are. -/
theorem map_generation_set {nodes : List Slot} {index : Nat} {slot : Slot}
    (hslot : nodes[index]? = some slot) (data : Option NodeData) :
    (nodes.set index { slot with data := data }).map Slot.generation =
      nodes.map Slot.generation := by
  obtain ⟨hlt, -⟩ := List.getElem?_eq_some_iff.mp hslot
  refine List.ext_getElem? fun i => ?_
  rw [List.getElem?_map, List.getElem?_map]
  by_cases hi : index = i
  · rw [← hi, List.getElem?_set_self hlt, hslot]
    rfl
  · rw [List.getElem?_set_ne hi]

/-- A new node in the slot given back last. -/
theorem alloc_reused {index : Nat} {rest : List Nat} (h : a.free = index :: rest)
    (hlt : index < a.nodes.length) (d : NodeData) :
    (a.alloc d).1 = a.slots.alloc.1 ∧ (a.alloc d).2.slots = a.slots.alloc.2 ∧
      (a.alloc d).2.data? = Function.update a.data? (a.alloc d).1 (some d) := by
  -- the slot is there, though vacant, with the generation it was left with
  obtain ⟨slot, hslot⟩ : ∃ slot, a.nodes[index]? = some slot :=
    ⟨_, List.getElem?_eq_getElem hlt⟩
  have hgeneration : a.slots.generations[index]? = some slot.generation := by
    rw [slots, List.getElem?_map, hslot]
    rfl
  have halloc : a.alloc d = (⟨index, slot.generation⟩,
      { a with nodes := a.nodes.set index { slot with data := some d }, free := rest }) := by
    rw [alloc, h, storeIn, hslot]
  have hslots : a.slots.alloc = (⟨index, slot.generation⟩, ⟨a.slots.generations, rest⟩) := by
    have hfree : a.slots.free = index :: rest := h
    rw [Slots.alloc, hfree]
    show ((⟨index, a.slots.generations.getD index 0⟩ : NodeId), _) = _
    rw [List.getD_eq_getElem?_getD, hgeneration]
    rfl
  have hnew : data?
      { a with nodes := a.nodes.set index { slot with data := some d }, free := rest }
      ⟨index, slot.generation⟩ = some d := data?_eq_some.mpr (List.getElem?_set_self hlt)
  rw [halloc, hslots]
  refine ⟨rfl, ?_, data?_eq_update hnew ?_ fun i hi => List.getElem?_set_ne (Ne.symm hi)⟩
  · rw [slots, map_generation_set hslot]
    rfl
  -- handles of earlier generations stay dead
  · intro m hm hindex
    have hne : slot.generation ≠ m.generation := by
      intro heq
      cases m
      cases hindex
      cases heq
      exact hm rfl
    have hm' : m.index = index := hindex
    rw [data?_of_index hnew hm hindex, data?, hm', hslot]
    exact (if_neg hne).symm

/-- A new node is stored under the handle that the slots give out. -/
theorem alloc_eq (hfree : ∀ i ∈ a.free, i < a.nodes.length) (d : NodeData) :
    (a.alloc d).1 = a.slots.alloc.1 ∧ (a.alloc d).2.slots = a.slots.alloc.2 ∧
      (a.alloc d).2.data? = Function.update a.data? (a.alloc d).1 (some d) := by
  cases hcases : a.free with
  | nil => exact alloc_new hcases d
  | cons index rest => exact alloc_reused hcases (hfree index (hcases ▸ List.mem_cons_self)) d

/-- A node that is given back is no longer stored. -/
theorem release_eq (h : a.data? n = some d) :
    (a.release n).1 = some d ∧ (a.release n).2.slots = a.slots.release n ∧
      (a.release n).2.data? = Function.update a.data? n none := by
  have hslot := data?_eq_some.mp h
  have hrelease : a.release n = (some d, { a with
      nodes := a.nodes.modify n.index fun slot => ⟨slot.generation + 1, none⟩
      free := n.index :: a.free }) := by
    rw [release, h]
  rw [hrelease]
  -- the slot counts on, so no handle with its index finds anything
  have hvacant : ∀ m : NodeId, m.index = n.index → data? { a with
      nodes := a.nodes.modify n.index fun slot => ⟨slot.generation + 1, none⟩
      free := n.index :: a.free } m = none := by
    intro m hm
    have hslot' : (a.nodes.modify n.index fun slot => ⟨slot.generation + 1, none⟩)[m.index]? =
        some ⟨n.generation + 1, none⟩ := by
      rw [hm, List.getElem?_modify_eq, hslot]
      rfl
    exact data?_of_vacant hslot'
  refine ⟨rfl, ?_, data?_eq_update (hvacant n rfl) ?_ ?_⟩
  · have hmap : (a.nodes.modify n.index fun slot => ⟨slot.generation + 1, none⟩).map
        Slot.generation = (a.nodes.map Slot.generation).modify n.index (· + 1) := by
      refine List.ext_getElem? fun i => ?_
      rw [List.getElem?_map, List.getElem?_modify, List.getElem?_modify, List.getElem?_map]
      cases a.nodes[i]? with
      | none => rfl
      | some slot =>
          show some (if n.index = i then _ else slot).generation =
            some (if n.index = i then slot.generation + 1 else slot.generation)
          split <;> rfl
    rw [slots, hmap]
    rfl
  · intro m hm hindex
    rw [hvacant m hindex, data?_of_index h hm hindex]
  · exact fun i hi => List.getElem?_modify_ne _ _ (Ne.symm hi)

/-- The trees and what listeners have heard are the same in both. -/
structure SameBooks (a b : Arena) : Prop where
  trees : b.trees = a.trees
  nextTree : b.nextTree = a.nextTree
  notices : b.notices = a.notices

namespace SameBooks

theorem refl (a : Arena) : SameBooks a a := ⟨rfl, rfl, rfl⟩

theorem trans {c : Arena} (h : SameBooks a b) (h' : SameBooks b c) : SameBooks a c :=
  ⟨h'.trees.trans h.trees, h'.nextTree.trans h.nextTree, h'.notices.trans h.notices⟩

/-- Storing a node touches slots only. -/
theorem alloc (a : Arena) (d : NodeData) : SameBooks a (a.alloc d).2 := by
  rw [Arena.alloc]
  induction a.free with
  | nil => exact ⟨rfl, rfl, rfl⟩
  | cons index rest ih =>
      rw [storeIn]
      split
      · exact ⟨rfl, rfl, rfl⟩
      · exact ih

/-- Giving a slot back touches slots only. -/
theorem release (a : Arena) (n : NodeId) : SameBooks a (a.release n).2 := by
  rw [Arena.release]
  split <;> exact ⟨rfl, rfl, rfl⟩

end SameBooks

/-! ## Handles in use -/

/-- The handles `ids`, and no others, are in use, and free slots are
    empty. -/
structure Holds (a : Arena) (ids : List NodeId) : Prop where
  slots : a.slots.Holds ids
  tidy : ∀ n, n.index ∈ a.free → a.data? n = none

namespace Holds

variable {ids : List NodeId}

/-- The order in which handles are listed does not matter. -/
theorem perm {ids' : List NodeId} (h : a.Holds ids) (hperm : ids.Perm ids') : a.Holds ids' :=
  ⟨h.slots.perm hperm, h.tidy⟩

/-- Free slots are among the slots. -/
theorem free_lt (h : a.Holds ids) : ∀ i ∈ a.free, i < a.nodes.length := fun i hi =>
  length_slots a ▸ h.slots.free_lt i hi

/-- What is stored is stored under a handle in use. -/
theorem mem_of_data? (h : a.Holds ids) (hn : a.data? n = some d) : n ∈ ids := by
  have hcurrent := generation_of_data? hn
  have hlt := (List.getElem?_eq_some_iff.mp hcurrent).1
  rcases h.slots.covered n.index hlt with hfree | ⟨id, hid, hindex⟩
  · exact absurd (h.tidy n hfree) (hn ▸ Option.some_ne_none d)
  · have hgeneration : some id.generation = some n.generation := by
      rw [← h.slots.current id hid, hindex, hcurrent]
    cases n
    cases id
    cases hindex
    cases hgeneration
    exact hid

/-- There are no more handles in use than slots. -/
theorem length_le (h : a.Holds ids) : ids.length ≤ a.nodes.length := by
  rw [← h.slots.inUse, ← length_slots]
  exact Nat.sub_le _ _

/-- So there are slots for all of some handles in use. -/
theorem room {some : List NodeId} (h : a.Holds ids) (hnodup : some.Nodup)
    (hsub : ∀ n ∈ some, n ∈ ids) : some.length ≤ a.nodes.length :=
  Nat.le_trans (List.subperm_of_subset hnodup hsub).length_le h.length_le

/-- A new node comes under a handle that was not in use. -/
theorem alloc (h : a.Holds ids) (d : NodeData) :
    (a.alloc d).2.Holds ((a.alloc d).1 :: ids) ∧ (a.alloc d).1 = a.slots.alloc.1 ∧
      (a.alloc d).2.slots = a.slots.alloc.2 ∧
      (a.alloc d).2.data? = Function.update a.data? (a.alloc d).1 (some d) := by
  obtain ⟨hid, hslots, hdata⟩ := alloc_eq h.free_lt d
  have hheld : (a.alloc d).2.slots.Holds ((a.alloc d).1 :: ids) := by
    rw [hid, hslots]
    exact h.slots.alloc
  refine ⟨⟨hheld, fun n hn => ?_⟩, hid, hslots, hdata⟩
  have hne : n ≠ (a.alloc d).1 := fun heq => hheld.not_free _ List.mem_cons_self (heq ▸ hn)
  have hfree : (a.alloc d).2.free = a.slots.alloc.2.free := congrArg Slots.free hslots
  rw [hdata, Function.update_of_ne hne]
  rw [hfree, Slots.alloc] at hn
  refine h.tidy n ?_
  show n.index ∈ a.slots.free
  split at hn
  · rename_i index rest hcons
    rw [hcons]
    exact List.mem_cons_of_mem _ hn
  · exact hn

/-- A node that is given back is no longer in use. -/
theorem release (h : a.Holds (n :: ids)) (hn : a.data? n = some d) :
    (a.release n).2.Holds ids := by
  obtain ⟨-, hslots, hdata⟩ := release_eq hn
  refine ⟨hslots ▸ h.slots.release, fun m hm => ?_⟩
  have hfree : (a.release n).2.free = n.index :: a.free := congrArg Slots.free hslots
  rw [hfree] at hm
  rw [hdata]
  by_cases heq : m = n
  · rw [heq, Function.update_self]
  · rw [Function.update_of_ne heq]
    rcases List.mem_cons.mp hm with hindex | hmem
    · exact data?_of_index hn heq hindex
    · exact h.tidy m hmem

end Holds

/-! ## Rewriting what is stored -/

/-- From the first arena to the second only stored fields and the entries of
    trees change. -/
structure Rewrites (a b : Arena) : Prop where
  slots : b.slots = a.slots
  live : ∀ n, (b.data? n).isSome = (a.data? n).isSome
  nextTree : b.nextTree = a.nextTree
  notices : b.notices = a.notices

namespace Rewrites

variable {c : Arena} {ids : List NodeId}

theorem refl (a : Arena) : a.Rewrites a := ⟨rfl, fun _ => rfl, rfl, rfl⟩

theorem trans (h : a.Rewrites b) (h' : b.Rewrites c) : a.Rewrites c :=
  ⟨h'.slots.trans h.slots, fun n => (h'.live n).trans (h.live n), h'.nextTree.trans h.nextTree,
    h'.notices.trans h.notices⟩

/-- Writing to a node in use rewrites. -/
theorem put {e : NodeData} (h : a.data? n = some e) (d : NodeData) : a.Rewrites (a.put n d) := by
  refine ⟨slots_put a n d, fun m => ?_, rfl, rfl⟩
  rw [data?_put h]
  by_cases hm : m = n
  · rw [hm, Function.update_self, h]
    rfl
  · rw [Function.update_of_ne hm]

/-- The entries of trees are no matter of the slots. -/
theorem entries (a : Arena) (trees : List TreeEntry) : a.Rewrites { a with trees := trees } :=
  ⟨rfl, fun _ => rfl, rfl, rfl⟩

/-- There are as many slots after as before. -/
theorem length (h : a.Rewrites b) : b.nodes.length = a.nodes.length := by
  rw [← length_slots, h.slots, length_slots]

/-- The same handles are in use. -/
theorem holds (h : a.Rewrites b) (ha : a.Holds ids) : b.Holds ids := by
  refine ⟨h.slots ▸ ha.slots, fun n hn => ?_⟩
  have hfree : b.free = a.free := congrArg Slots.free h.slots
  rw [← Option.not_isSome_iff_eq_none, h.live n, ha.tidy n (hfree ▸ hn)]
  exact Bool.false_ne_true

end Rewrites

/-! ## Reading and writing as work -/

/-- Looking up a node that is there. -/
theorem data_ok (h : a.data? n = some d) : data n a = some (.ok d, a) := by
  rw [data, Work.ask_bind, h]
  rfl

/-- Looking up a node that is not there is refused. -/
theorem data_error (h : a.data? n = none) : data n a = some (.error (.unknownNode n), a) := by
  rw [data, Work.ask_bind, h]
  rfl

/-- Writing to a node that is there. -/
theorem write_ok (h : a.data? n = some d) (change : NodeData → NodeData) :
    write n change a = some (.ok (), a.put n (change d)) := by
  rw [write, Work.bind_ok (data_ok h)]
  rfl

end SequentProver.Arena
