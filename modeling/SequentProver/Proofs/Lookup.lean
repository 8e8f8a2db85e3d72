import Mathlib.Data.List.Forall2
import Mathlib.Data.List.Nodup
import SequentProver.Order.SortedBy

/-! # Looking up in tables

    A table is seen through the keys it has and the member it holds for
    each of them.  What an insertion or a change of members does is said
    in these terms once, and nothing later looks at the list inside. -/

namespace SequentProver

variable {α κ : Type}

/-- Where keys do not repeat, the member found for a key is the one that
    has it. -/
theorem find?_key_eq_some [DecidableEq κ] {key : α → κ} {l : List α} (hl : (l.map key).Nodup)
    {k : κ} {a : α} : l.find? (fun b => key b = k) = some a ↔ a ∈ l ∧ key a = k := by
  constructor
  · intro h
    refine ⟨List.mem_of_find?_eq_some h, ?_⟩
    simpa using List.find?_some h
  · rintro ⟨hmem, rfl⟩
    cases hfind : l.find? fun b => key b = key a with
    | none => exact absurd (decide_eq_true rfl) (List.find?_eq_none.mp hfind a hmem)
    | some b =>
        have hb : key b = key a := by simpa using List.find?_some hfind
        rw [List.inj_on_of_nodup_map hl (List.mem_of_find?_eq_some hfind) hmem hb]

/-- A member of the second of two related lists has a partner in the first. -/
theorem exists_of_mem_right {β : Type} {R : α → β → Prop} {l : List α} {m : List β}
    (h : List.Forall₂ R l m) {b : β} (hb : b ∈ m) : ∃ a ∈ l, R a b := by
  induction h with
  | nil => exact nomatch hb
  | cons hab _ ih =>
      rcases List.mem_cons.mp hb with rfl | hb
      · exact ⟨_, List.mem_cons_self, hab⟩
      · obtain ⟨a, ha, hr⟩ := ih hb
        exact ⟨a, List.mem_cons_of_mem _ ha, hr⟩

/-- A key occurs once. -/
theorem SortedBy.nodup_keys [Ord κ] [Std.LawfulEqOrd κ] {key : α → κ} (s : SortedBy key) :
    (s.toList.map key).Nodup := by
  rw [List.nodup_iff_pairwise_ne, List.pairwise_map]
  exact s.sorted.imp SortedSet.ne_of_lt

/-- A member is determined by its key. -/
theorem SortedBy.eq_of_key [Ord κ] [Std.LawfulEqOrd κ] {key : α → κ} {s : SortedBy key} {a b : α}
    (ha : a ∈ s.toList) (hb : b ∈ s.toList) (h : key a = key b) : a = b :=
  List.inj_on_of_nodup_map s.nodup_keys ha hb h

variable [Ord κ] [DecidableEq κ]

/-- The member for a key after an insertion. -/
theorem find?_insertBy [Std.LawfulEqOrd κ] {key : α → κ} (a : α) (k : κ) (l : List α) :
    (insertBy key a l).find? (fun b => key b = k)
      = if key a = k then some a else l.find? (fun b => key b = k) := by
  induction l with
  | nil =>
      rw [insertBy, List.find?_cons]
      by_cases hk : key a = k
      · rw [if_pos hk, decide_eq_true hk]
      · rw [if_neg hk, decide_eq_false hk]
  | cons b rest ih =>
      rw [insertBy]
      split
      · rw [List.find?_cons]
        by_cases hk : key a = k
        · rw [if_pos hk, decide_eq_true hk]
        · rw [if_neg hk, decide_eq_false hk]
      · rename_i heq
        -- the old member had the same key, so no other key is affected
        have hab : key a = key b := Std.LawfulEqCmp.eq_of_compare heq
        rw [List.find?_cons, List.find?_cons, ← hab]
        by_cases hk : key a = k
        · rw [if_pos hk, decide_eq_true hk]
        · rw [if_neg hk, decide_eq_false hk]
      · rename_i hgt
        have hne : key a ≠ key b := by
          intro hab
          have hself : compare (key b) (key b) = .eq := Std.ReflCmp.compare_self
          rw [hab, hself] at hgt
          cases hgt
        rw [List.find?_cons, List.find?_cons, ih]
        by_cases hk : key b = k
        · have hak : key a ≠ k := fun h => hne (h.trans hk.symm)
          rw [if_neg hak, if_neg hak, decide_eq_true hk]
        · rw [decide_eq_false hk]

namespace SortedBy

variable {key : α → κ}

/-- A key is there exactly when some member has it. -/
theorem hasKey_iff {s : SortedBy key} {k : κ} :
    s.hasKey k = true ↔ ∃ a ∈ s.toList, key a = k := by
  rw [hasKey, List.any_eq_true]
  constructor
  · rintro ⟨a, hmem, hk⟩
    exact ⟨a, hmem, of_decide_eq_true hk⟩
  · rintro ⟨a, hmem, hk⟩
    exact ⟨a, hmem, decide_eq_true hk⟩

/-- A key is there exactly when it is found. -/
theorem hasKey_eq_isSome_find? (s : SortedBy key) (k : κ) :
    s.hasKey k = (s.find? k).isSome := by
  rw [Bool.eq_iff_iff, hasKey, find?, List.find?_isSome, List.any_eq_true]

/-- A change of members that leaves their keys alone leaves the keys of the
    table alone. -/
@[simp] theorem hasKey_adjust {f : α → α} {hf : ∀ a, key (f a) = key a} (s : SortedBy key)
    (k : κ) : (s.adjust f hf).hasKey k = s.hasKey k := by
  show (s.toList.map f).any (fun a => key a = k) = s.toList.any (fun a => key a = k)
  rw [List.any_map]
  congr 1
  funext a
  show decide (key (f a) = k) = decide (key a = k)
  rw [hf a]

variable [Std.TransOrd κ] [Std.LawfulEqOrd κ]

/-- The member for a key after an insertion. -/
theorem find?_insert (a : α) (s : SortedBy key) (k : κ) :
    (s.insert a).find? k = if key a = k then some a else s.find? k :=
  find?_insertBy a k s.toList

/-- An insertion adds one key. -/
theorem hasKey_insert {a : α} {s : SortedBy key} {k : κ} :
    (s.insert a).hasKey k = true ↔ key a = k ∨ s.hasKey k = true := by
  rw [hasKey_eq_isSome_find?, hasKey_eq_isSome_find?, find?_insert]
  by_cases hk : key a = k
  · rw [if_pos hk]
    exact ⟨fun _ => Or.inl hk, fun _ => rfl⟩
  · rw [if_neg hk]
    exact ⟨Or.inr, fun h => h.resolve_left hk⟩

/-- Inserting a list adds the keys of its members. -/
theorem hasKey_insertAll {l : List α} {s : SortedBy key} {k : κ} :
    (s.insertAll l).hasKey k = true ↔ s.hasKey k = true ∨ ∃ a ∈ l, key a = k := by
  induction l generalizing s with
  | nil =>
      constructor
      · exact Or.inl
      · rintro (h | ⟨a, hmem, -⟩)
        · exact h
        · exact nomatch hmem
  | cons b rest ih =>
      show ((s.insert b).insertAll rest).hasKey k = true ↔ _
      rw [ih, hasKey_insert]
      constructor
      · rintro ((h | h) | ⟨a, hmem, hk⟩)
        · exact Or.inr ⟨b, List.mem_cons_self, h⟩
        · exact Or.inl h
        · exact Or.inr ⟨a, List.mem_cons_of_mem _ hmem, hk⟩
      · rintro (h | ⟨a, hmem, hk⟩)
        · exact Or.inl (Or.inr h)
        · rcases List.mem_cons.mp hmem with rfl | hmem
          · exact Or.inl (Or.inl hk)
          · exact Or.inr ⟨a, hmem, hk⟩

end SortedBy

end SequentProver
