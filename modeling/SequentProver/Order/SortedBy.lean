/-! # Collections kept in the order of a key

    A `SortedBy key` is a list that is strictly increasing in `key`, so a
    key occurs at most once and two collections with the same members are
    the same value.  Finite sets are the case where the key is the element
    itself; tables take a component as the key.

    Route:
    1. `insertBy` puts an element in its place and keeps the order;
    2. `SortedBy` bundles the list with its order;
    3. `SortedSet` is the identity-key case, seen through `∈`: what each
       operation does to the members, and `ext_mem`. -/

namespace SequentProver

variable {α κ : Type}

/-! ## Insertion into an ordered list -/

/-- Put `a` at its place; an element with the same key is replaced. -/
def insertBy [Ord κ] (key : α → κ) (a : α) : List α → List α
  | [] => [a]
  | b :: rest =>
    match compare (key a) (key b) with
    | .lt => a :: b :: rest
    | .eq => a :: rest
    | .gt => b :: insertBy key a rest

/-- Strictly increasing in the key. -/
abbrev IncreasingBy [Ord κ] (key : α → κ) (l : List α) : Prop :=
  l.Pairwise fun a b => compare (key a) (key b) = .lt

/-- Only the inserted element is new. -/
theorem mem_of_mem_insertBy [Ord κ] {key : α → κ} {a x : α} {l : List α}
    (h : x ∈ insertBy key a l) : x = a ∨ x ∈ l := by
  induction l with
  | nil =>
      simp only [insertBy, List.mem_singleton] at h
      exact Or.inl h
  | cons b rest ih =>
      rw [insertBy] at h
      -- before `b`, in its place, or somewhere behind it
      split at h
      · rcases List.mem_cons.mp h with rfl | hm
        · exact Or.inl rfl
        · exact Or.inr hm
      · rcases List.mem_cons.mp h with rfl | hm
        · exact Or.inl rfl
        · exact Or.inr (List.mem_cons_of_mem _ hm)
      · rcases List.mem_cons.mp h with rfl | hm
        · exact Or.inr (List.mem_cons_self ..)
        · rcases ih hm with rfl | hm
          · exact Or.inl rfl
          · exact Or.inr (List.mem_cons_of_mem _ hm)

/-- Insertion keeps the order. -/
theorem increasingBy_insertBy [Ord κ] [Std.TransOrd κ] [Std.LawfulEqOrd κ]
    {key : α → κ} (a : α) {l : List α} (h : IncreasingBy key l) :
    IncreasingBy key (insertBy key a l) := by
  induction l with
  | nil => exact List.pairwise_singleton _ _
  | cons b rest ih =>
      obtain ⟨hb, hrest⟩ := List.pairwise_cons.mp h
      rw [insertBy]
      split
      · rename_i hlt
        refine List.pairwise_cons.mpr ⟨?_, h⟩
        intro x hx
        rcases List.mem_cons.mp hx with rfl | hx
        · exact hlt
        · exact Std.TransCmp.lt_trans hlt (hb x hx)
      · rename_i heq
        -- the new element takes the place of the one with its key
        have hkey : key a = key b := Std.LawfulEqCmp.eq_of_compare heq
        refine List.pairwise_cons.mpr ⟨?_, hrest⟩
        intro x hx
        rw [hkey]
        exact hb x hx
      · rename_i hgt
        refine List.pairwise_cons.mpr ⟨?_, ih hrest⟩
        intro x hx
        -- what is behind `b` was there before or is the new element
        rcases mem_of_mem_insertBy hx with rfl | hx
        · exact Std.OrientedCmp.lt_of_gt hgt
        · exact hb x hx

/-! ## The collection -/

/-- A list strictly increasing in `key`. -/
structure SortedBy [Ord κ] (key : α → κ) where
  toList : List α
  sorted : IncreasingBy key toList

namespace SortedBy

variable [Ord κ] {key : α → κ}

/-- A collection is known by its list. -/
theorem ext_toList {s t : SortedBy key} (h : s.toList = t.toList) : s = t := by
  cases s
  cases t
  cases h
  rfl

instance [DecidableEq α] : DecidableEq (SortedBy key) := fun s t =>
  decidable_of_iff (s.toList = t.toList)
    ⟨ext_toList, fun h => h ▸ rfl⟩

/-- The collection without members. -/
def empty : SortedBy key := ⟨[], List.Pairwise.nil⟩

instance : EmptyCollection (SortedBy key) := ⟨empty⟩

instance : Inhabited (SortedBy key) := ⟨empty⟩

instance : Membership α (SortedBy key) := ⟨fun s a => a ∈ s.toList⟩

instance [DecidableEq α] (a : α) (s : SortedBy key) : Decidable (a ∈ s) :=
  inferInstanceAs (Decidable (a ∈ s.toList))

/-- Number of members. -/
def size (s : SortedBy key) : Nat := s.toList.length

/-- Whether nothing is in it. -/
def isEmpty (s : SortedBy key) : Bool := s.toList.isEmpty

/-- The member with the given key. -/
def find? [DecidableEq κ] (s : SortedBy key) (k : κ) : Option α :=
  s.toList.find? fun a => key a = k

/-- Whether some member has the given key. -/
def hasKey [DecidableEq κ] (s : SortedBy key) (k : κ) : Bool :=
  s.toList.any fun a => key a = k

/-- Keep the members that satisfy `p`. -/
def filter (p : α → Bool) (s : SortedBy key) : SortedBy key :=
  ⟨s.toList.filter p, s.sorted.filter p⟩

/-- Change members without changing their keys. -/
def adjust (f : α → α) (hf : ∀ a, key (f a) = key a) (s : SortedBy key) :
    SortedBy key :=
  ⟨s.toList.map f, by
    rw [IncreasingBy, List.pairwise_map]
    exact s.sorted.imp fun {a b} h => by rw [hf a, hf b]; exact h⟩

variable [Std.TransOrd κ] [Std.LawfulEqOrd κ]

/-- Add a member; one with the same key is replaced. -/
def insert (a : α) (s : SortedBy key) : SortedBy key :=
  ⟨insertBy key a s.toList, increasingBy_insertBy a s.sorted⟩

/-- Add all members of a list, first to last. -/
def insertAll (s : SortedBy key) (l : List α) : SortedBy key :=
  l.foldl (fun acc a => acc.insert a) s

/-- Collect a list given in any order, repetitions allowed. -/
def ofList (l : List α) : SortedBy key := insertAll empty l

end SortedBy

/-! ## Finite sets -/

/-- A finite set, listed in the order of its elements. -/
abbrev SortedSet (α : Type) [Ord α] := SortedBy (fun a : α => a)

namespace SortedSet

variable [Ord α]

/-- Whether `s` and `t` have a common element. -/
def meets [DecidableEq α] (s t : SortedSet α) : Bool :=
  s.toList.any fun a => decide (a ∈ t)

/-- The elements of `s` outside `t`. -/
def diff [DecidableEq α] (s t : SortedSet α) : SortedSet α :=
  s.filter fun a => !decide (a ∈ t)

/-- The elements of `s` that are also in `t`. -/
def inter [DecidableEq α] (s t : SortedSet α) : SortedSet α :=
  s.filter fun a => decide (a ∈ t)

@[simp] theorem mem_filter {x : α} {s : SortedSet α} {p : α → Bool} :
    x ∈ s.filter p ↔ x ∈ s ∧ p x = true :=
  List.mem_filter

@[simp] theorem mem_inter [DecidableEq α] {x : α} {s t : SortedSet α} :
    x ∈ inter s t ↔ x ∈ s ∧ x ∈ t := by
  rw [inter, mem_filter, decide_eq_true_iff]

@[simp] theorem mem_diff [DecidableEq α] {x : α} {s t : SortedSet α} :
    x ∈ diff s t ↔ x ∈ s ∧ x ∉ t := by
  rw [diff, mem_filter, Bool.not_eq_true', decide_eq_false_iff_not]

/-- Insertion adds one member. -/
theorem mem_insertBy [Std.LawfulEqOrd α] {a x : α} {l : List α} :
    x ∈ insertBy (fun a : α => a) a l ↔ x = a ∨ x ∈ l := by
  refine ⟨mem_of_mem_insertBy, ?_⟩
  intro h
  induction l with
  | nil =>
      rcases h with rfl | hx
      · exact List.mem_singleton.mpr rfl
      · exact absurd hx List.not_mem_nil
  | cons b rest ih =>
      rw [insertBy]
      split
      · exact List.mem_cons.mpr h
      · rename_i heq
        -- an equal element is the element itself
        have hab : a = b := Std.LawfulEqCmp.eq_of_compare heq
        subst hab
        rcases h with rfl | hx
        · exact List.mem_cons_self
        · exact hx
      · rcases h with rfl | hx
        · exact List.mem_cons_of_mem _ (ih (Or.inl rfl))
        · rcases List.mem_cons.mp hx with rfl | hx
          · exact List.mem_cons_self
          · exact List.mem_cons_of_mem _ (ih (Or.inr hx))

/-- What is below something differs from it. -/
theorem ne_of_lt [Std.LawfulEqOrd α] {a b : α} (h : compare a b = .lt) : a ≠ b := by
  rintro rfl
  have hself : compare a a = .eq := Std.ReflCmp.compare_self
  rw [hself] at h
  exact absurd h (by decide)

variable [Std.TransOrd α] [Std.LawfulEqOrd α]

/-- The elements of either set. -/
def union (s t : SortedSet α) : SortedSet α := s.insertAll t.toList

/-- An insertion adds one element. -/
@[simp] theorem mem_insert {a x : α} {s : SortedSet α} : x ∈ s.insert a ↔ x = a ∨ x ∈ s :=
  mem_insertBy

/-- Insertions add the elements of the list. -/
@[simp] theorem mem_insertAll {x : α} {s : SortedSet α} {l : List α} :
    x ∈ s.insertAll l ↔ x ∈ s ∨ x ∈ l := by
  induction l generalizing s with
  | nil => exact ⟨Or.inl, fun h => h.resolve_right List.not_mem_nil⟩
  | cons a rest ih =>
      show x ∈ (s.insert a).insertAll rest ↔ _
      rw [ih, mem_insert, List.mem_cons]
      constructor
      · rintro ((h | h) | h)
        · exact Or.inr (Or.inl h)
        · exact Or.inl h
        · exact Or.inr (Or.inr h)
      · rintro (h | h | h)
        · exact Or.inl (Or.inr h)
        · exact Or.inl (Or.inl h)
        · exact Or.inr h

/-- A set has the elements of the list that it was made from. -/
@[simp] theorem mem_ofList {x : α} {l : List α} :
    x ∈ (SortedBy.ofList l : SortedSet α) ↔ x ∈ l := by
  show x ∈ SortedBy.insertAll _ l ↔ _
  rw [mem_insertAll]
  exact ⟨fun h => h.resolve_left List.not_mem_nil, Or.inr⟩

@[simp] theorem mem_union {x : α} {s t : SortedSet α} : x ∈ union s t ↔ x ∈ s ∨ x ∈ t :=
  mem_insertAll

/-- Two increasing lists with the same members are the same list. -/
theorem eq_of_increasing {l m : List α} (hl : IncreasingBy (fun a : α => a) l)
    (hm : IncreasingBy (fun a : α => a) m) (h : ∀ x, x ∈ l ↔ x ∈ m) : l = m := by
  induction l generalizing m with
  | nil =>
      cases m with
      | nil => rfl
      | cons b rest => exact absurd ((h b).mpr List.mem_cons_self) List.not_mem_nil
  | cons a l ih =>
      cases m with
      | nil => exact absurd ((h a).mp List.mem_cons_self) List.not_mem_nil
      | cons b m =>
          obtain ⟨ha, hl'⟩ := List.pairwise_cons.mp hl
          obtain ⟨hb, hm'⟩ := List.pairwise_cons.mp hm
          -- each head is a member of the other list, so neither is below the other
          have hab : a = b := by
            rcases List.mem_cons.mp ((h a).mp List.mem_cons_self) with hab | hmem
            · exact hab
            · rcases List.mem_cons.mp ((h b).mpr List.mem_cons_self) with hba | hmem'
              · exact hba.symm
              · exact absurd rfl (ne_of_lt (Std.TransCmp.lt_trans (hb a hmem) (ha b hmem')))
          subst hab
          refine congrArg (a :: ·) (ih hl' hm' fun x => ?_)
          constructor
          · intro hx
            rcases List.mem_cons.mp ((h x).mp (List.mem_cons_of_mem _ hx)) with rfl | hx'
            · exact absurd rfl (ne_of_lt (ha _ hx))
            · exact hx'
          · intro hx
            rcases List.mem_cons.mp ((h x).mpr (List.mem_cons_of_mem _ hx)) with rfl | hx'
            · exact absurd rfl (ne_of_lt (hb _ hx))
            · exact hx'

/-- Sets with the same members are the same set. -/
theorem ext_mem {s t : SortedSet α} (h : ∀ x, x ∈ s ↔ x ∈ t) : s = t :=
  SortedBy.ext_toList (eq_of_increasing s.sorted t.sorted h)

end SortedSet

end SequentProver
