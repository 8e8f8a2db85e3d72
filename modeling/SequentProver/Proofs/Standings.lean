import SequentProver.Proofs.Coherence

/-! # How hypotheses stand

    A change of a sequent is seen here through the entry it leaves for each
    predicate, with origin and standing.  A mark touches the entries it
    mentions and no others; deriving adds entries and touches none.  What
    comes of whole operations follows without looking into the table. -/

namespace SequentProver

namespace SortedBy

variable {α κ : Type} [Ord κ] [DecidableEq κ] {key : α → κ}

/-- The member for a key after a change of members. -/
theorem find?_adjust {f : α → α} {hf : ∀ a, key (f a) = key a} (s : SortedBy key) (k : κ) :
    (s.adjust f hf).find? k = (s.find? k).map f := by
  show (s.toList.map f).find? (fun a => key a = k) = (s.toList.find? fun a => key a = k).map f
  rw [List.find?_map]
  congr 2
  funext a
  show decide (key (f a) = k) = decide (key a = k)
  rw [hf a]

variable [Std.TransOrd κ] [Std.LawfulEqOrd κ]

/-- Inserting one member for each key of a list. -/
theorem find?_insertAll_map {entry : κ → α} (hentry : ∀ k, key (entry k) = k) (ks : List κ)
    (s : SortedBy key) (k : κ) :
    (s.insertAll (ks.map entry)).find? k = if k ∈ ks then some (entry k) else s.find? k := by
  induction ks generalizing s with
  | nil => exact (if_neg List.not_mem_nil).symm
  | cons k' rest ih =>
      show ((s.insert (entry k')).insertAll (rest.map entry)).find? k = _
      -- a later entry for the same key wins over an earlier one
      rw [ih, find?_insert, hentry]
      by_cases hrest : k ∈ rest
      · rw [if_pos hrest, if_pos (List.mem_cons_of_mem _ hrest)]
      · rw [if_neg hrest]
        by_cases hk : k' = k
        · subst hk
          rw [if_pos rfl, if_pos List.mem_cons_self]
        · have hnot : k ∉ k' :: rest := by
            intro hmem
            rcases List.mem_cons.mp hmem with rfl | hmem
            · exact hk rfl
            · exact hrest hmem
          rw [if_neg hk, if_neg hnot]

end SortedBy

namespace Sequent

variable {s t : Sequent} {p : Pred} {ps : List Pred} {m : Mark} {standing : Standing}

/-! ## Entries -/

/-- A hypothesis is what has an entry. -/
theorem has_eq_isSome (s : Sequent) (p : Pred) : s.has p = (s.hypothesis? p).isSome :=
  s.hyps.hasKey_eq_isSome_find? p

/-- The entry of a predicate is about it. -/
theorem pred_of_hypothesis? {h : Hypothesis} (hh : s.hypothesis? p = some h) : h.pred = p := by
  rw [hypothesis?, SortedBy.find?] at hh
  simpa using List.find?_some hh

/-- A standing is that of the entry. -/
theorem stands_iff :
    s.stands standing p = true ↔ ∃ h, s.hypothesis? p = some h ∧ h.standing = standing := by
  rw [stands]
  cases s.hypothesis? p with
  | none =>
      constructor
      · intro h
        cases h
      · rintro ⟨h, hh, -⟩
        cases hh
  | some entry =>
      constructor
      · intro h
        exact ⟨entry, rfl, of_decide_eq_true h⟩
      · rintro ⟨h, hh, hstanding⟩
        cases hh
        exact decide_eq_true hstanding

/-! ## Marks -/

/-- Marking changes the entries of the given predicates and no others. -/
theorem hypothesis?_mark (s : Sequent) (m : Mark) (ps : List Pred) (p : Pred) :
    (s.mark m ps).hypothesis? p = (s.hypothesis? p).map fun h =>
      if p ∈ ps then { h with standing := m.apply h.standing } else h := by
  have hadjust : (s.mark m ps).hypothesis? p = (s.hypothesis? p).map fun h =>
      if h.pred ∈ ps then { h with standing := m.apply h.standing } else h := by
    rw [hypothesis?, mark, SortedBy.find?_adjust, hypothesis?]
  rw [hadjust]
  cases hentry : s.hypothesis? p with
  | none => rfl
  | some entry => rw [Option.map_some, Option.map_some, pred_of_hypothesis? hentry]

/-- A mark leaves alone what it does not mention. -/
theorem hypothesis?_mark_of_notMem (hp : p ∉ ps) :
    (s.mark m ps).hypothesis? p = s.hypothesis? p := by
  rw [hypothesis?_mark]
  simp only [if_neg hp, Option.map_id']

/-- Marking does not touch which hypotheses there are. -/
theorem has_mark (s : Sequent) (m : Mark) (ps : List Pred) (p : Pred) :
    (s.mark m ps).has p = s.has p := by
  rw [has_eq_isSome, hypothesis?_mark, Option.isSome_map, has_eq_isSome]

/-- Marking a hypothesis brings it into a standing that does not depend on the
    one it had, if the mark is a selection or hides. -/
theorem stands_mark (hm : ∀ old, m.apply old = standing) (hp : p ∈ ps) (hhas : s.has p = true) :
    (s.mark m ps).stands standing p = true := by
  rw [has_eq_isSome] at hhas
  obtain ⟨entry, hentry⟩ := Option.isSome_iff_exists.mp hhas
  refine stands_iff.mpr ⟨{ entry with standing := m.apply entry.standing }, ?_, hm _⟩
  rw [hypothesis?_mark, hentry, Option.map_some, if_pos hp]

/-- What is not marked stands as before. -/
theorem stands_mark_of_notMem (hp : p ∉ ps) :
    (s.mark m ps).stands standing p = s.stands standing p := by
  rw [stands, stands, hypothesis?_mark_of_notMem hp]

/-- Marking nothing changes nothing. -/
theorem mark_nil (s : Sequent) (m : Mark) : s.mark m [] = s := by
  have hhyps : (s.mark m []).hyps.toList = s.hyps.toList := by
    show s.hyps.toList.map (fun h => if h.pred ∈ [] then _ else h) = _
    simp only [List.not_mem_nil, if_false, List.map_id']
  rw [mark] at hhyps ⊢
  exact congrArg (fun hyps => { s with hyps := hyps }) (SortedBy.ext_toList hhyps)

/-! ## Derived hypotheses -/

/-- Only what has no entry gets one. -/
theorem hypothesis?_derive (s : Sequent) (standing : Standing) (ps : List Pred) (p : Pred) :
    (s.derive standing ps).hypothesis? p =
      if p ∈ ps ∧ s.has p = false then some ⟨p, .derived, standing⟩ else s.hypothesis? p := by
  have hinsert : (s.derive standing ps).hypothesis? p =
      if p ∈ ps.filter (fun q => !s.has q) then some ⟨p, .derived, standing⟩
      else s.hypothesis? p :=
    SortedBy.find?_insertAll_map (fun _ => rfl) _ _ _
  rw [hinsert]
  simp only [List.mem_filter, Bool.not_eq_true']

/-- What is not derived has the entry it had. -/
theorem hypothesis?_derive_of_notMem (hp : p ∉ ps) :
    (s.derive standing ps).hypothesis? p = s.hypothesis? p := by
  rw [hypothesis?_derive, if_neg fun h => hp h.1]

/-- What is new stands as it is derived. -/
theorem stands_derive (hp : p ∈ ps) (hnew : s.has p = false) :
    (s.derive standing ps).stands standing p = true := by
  refine stands_iff.mpr ⟨⟨p, .derived, standing⟩, ?_, rfl⟩
  rw [hypothesis?_derive, if_pos ⟨hp, hnew⟩]

end Sequent

end SequentProver
