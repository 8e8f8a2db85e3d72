import SequentProver.Proofs.StructuralOrder
import SequentProver.Proofs.Visibility

/-! # Sets of hypotheses

    A set of hypotheses is kept as a list in the order of formulas.  Since
    that order is total, a set has one such list: it does not matter in which
    order its members were inserted, nor how often.  The same holds of the
    sets a sequent is made of, given, derived, hidden and selected, when it is
    built and when hypotheses are added to it.

    Route:
    1. tables are determined by their lookups, so sequents are;
    2. `Enumerates`, the one list of a set, and what insertion makes of it;
    3. the sets of a sequent that was built or extended. -/

namespace SequentProver

/-- The same elements, in any order and any number of times. -/
def SameMembers {α : Type} (l m : List α) : Prop := ∀ x, x ∈ l ↔ x ∈ m

instance {α : Type} [DecidableEq α] (l m : List α) : Decidable (SameMembers l m) :=
  decidable_of_iff ((∀ x ∈ l, x ∈ m) ∧ ∀ x ∈ m, x ∈ l)
    ⟨fun h x => ⟨h.1 x, h.2 x⟩, fun h => ⟨fun x => (h x).mp, fun x => (h x).mpr⟩⟩

/-! ## Tables and their lookups -/

namespace SortedBy

variable {α κ : Type} [Ord κ] [Std.LawfulEqOrd κ] {key : α → κ}

/-- Tables that answer every lookup alike are the same table. -/
theorem ext_find? [DecidableEq κ] [Std.TransOrd κ] {s t : SortedBy key}
    (h : ∀ k, s.find? k = t.find? k) : s = t := by
  -- a member is what is found for its key
  have hmem : ∀ (u : SortedBy key) (a : α), a ∈ u.toList ↔ u.find? (key a) = some a := by
    intro u a
    rw [find?, find?_key_eq_some u.nodup_keys]
    exact ⟨fun ha => ⟨ha, rfl⟩, And.left⟩
  have hperm : s.toList.Perm t.toList := by
    rw [List.perm_ext_iff_of_nodup s.nodup_keys.of_map t.nodup_keys.of_map]
    intro a
    rw [hmem, hmem, h]
  refine ext_toList (hperm.eq_of_pairwise ?_ s.sorted t.sorted)
  intro a b _ _ hab hba
  exact absurd rfl (SortedSet.ne_of_lt (Std.TransCmp.lt_trans hab hba))

end SortedBy

/-- Only the members of what is inserted count. -/
theorem SortedSet.insertAll_congr {α : Type} [Ord α] [Std.TransOrd α] [Std.LawfulEqOrd α]
    (s : SortedSet α) {l m : List α} (h : SameMembers l m) : s.insertAll l = s.insertAll m := by
  refine ext_mem ?_
  intro x
  rw [mem_insertAll, mem_insertAll, h x]

/-! ## The list of a set -/

/-- The list has exactly these members, in order and each of them once. -/
structure Enumerates (members : Pred → Prop) (l : List Pred) : Prop where
  sorted : l.Pairwise Pred.Before
  nodup : l.Nodup
  mem : ∀ p, p ∈ l ↔ members p

/-- An increasing list enumerates its members. -/
theorem enumerates_of_increasing {members : Pred → Prop} {l : List Pred}
    (hl : IncreasingBy (fun p : Pred => p) l) (hmem : ∀ p, p ∈ l ↔ members p) :
    Enumerates members l where
  sorted := hl.imp Pred.before_of_compare
  nodup := List.nodup_iff_pairwise_ne.mpr (hl.imp SortedSet.ne_of_lt)
  mem := hmem

/-- A set has one list. -/
theorem Enumerates.unique {members : Pred → Prop} {l m : List Pred} (hl : Enumerates members l)
    (hm : Enumerates members m) : l = m := by
  refine SortedSet.eq_of_increasing (hl.sorted.imp Pred.compare_of_before)
    (hm.sorted.imp Pred.compare_of_before) ?_
  intro p
  rw [hl.mem, hm.mem]

/-- Insertions make the list of the members that were there and the new ones. -/
theorem enumerates_insertAll (s : SortedSet Pred) (l : List Pred) :
    Enumerates (fun p => p ∈ s ∨ p ∈ l) (s.insertAll l).toList :=
  enumerates_of_increasing (s.insertAll l).sorted fun _ => SortedSet.mem_insertAll

/-- There is no other list of these members. -/
theorem enumerates_iff (s : SortedSet Pred) (l : List Pred) {k : List Pred} :
    Enumerates (fun p => p ∈ s ∨ p ∈ l) k ↔ k = (s.insertAll l).toList := by
  constructor
  · intro h
    exact h.unique (enumerates_insertAll s l)
  · rintro rfl
    exact enumerates_insertAll s l

/-! ## The sets of a sequent -/

namespace Sequent

variable {s t : Sequent} {p : Pred} {ps qs : List Pred}

/-- The members of an origin, by their entries. -/
theorem mem_ofOrigin_iff {origin : Origin} :
    p ∈ s.ofOrigin origin ↔ ∃ h, s.hypothesis? p = some h ∧ h.origin = origin := by
  rw [mem_ofOrigin]
  constructor
  · rintro ⟨h, hmem, horigin, hpred⟩
    exact ⟨h, hypothesis?_eq_some.mpr ⟨hmem, hpred⟩, horigin⟩
  · rintro ⟨h, hentry, horigin⟩
    obtain ⟨hmem, hpred⟩ := hypothesis?_eq_some.mp hentry
    exact ⟨h, hmem, horigin, hpred⟩

/-- The hypotheses of an origin are in order, so their list is told by its
    members. -/
theorem enumerates_ofOrigin {members : Pred → Prop} {origin : Origin}
    (hmem : ∀ p, p ∈ s.ofOrigin origin ↔ members p) : Enumerates members (s.ofOrigin origin) :=
  enumerates_of_increasing
    (s.increasing_preds.sublist ((List.filter_sublist (l := s.hyps.toList)).map Hypothesis.pred))
    hmem

/-- A set of some standing enumerates its members. -/
theorem enumerates_ofStanding {members : Pred → Prop} {standing : Standing}
    (hmem : ∀ p, p ∈ s.ofStanding standing ↔ members p) :
    Enumerates members (s.ofStanding standing) :=
  enumerates_of_increasing (s.increasing_ofStanding standing) hmem

end Sequent

/-! ### Building -/

/-- The lists a sequent is built from. -/
structure HypLists where
  given : List Pred
  derived : List Pred
  hidden : List Pred
  selected : List Pred

namespace HypLists

variable {lists other : HypLists} {env : TypeEnv} {goal : Pred} {s : Sequent} {p : Pred}

/-- A sequent from the lists, or why there is none. -/
def build (lists : HypLists) (env : TypeEnv) (goal : Pred) : Except SequentError Sequent :=
  Sequent.build env lists.given lists.derived lists.hidden lists.selected goal

/-- The same elements in each of the four lists. -/
structure Same (lists other : HypLists) : Prop where
  given : SameMembers lists.given other.given
  derived : SameMembers lists.derived other.derived
  hidden : SameMembers lists.hidden other.hidden
  selected : SameMembers lists.selected other.selected

/-- The sets of the sequent have the members of the lists; what is given and
    derived counts as given. -/
structure Fill (lists : HypLists) (s : Sequent) : Prop where
  given : Enumerates (fun p => p ∈ lists.given) (s.ofOrigin .given)
  derived : Enumerates (fun p => p ∈ lists.derived ∧ p ∉ lists.given) (s.ofOrigin .derived)
  hidden : Enumerates (fun p => p ∈ lists.hidden) (s.ofStanding .hidden)
  selected : Enumerates (fun p => p ∈ lists.selected) (s.ofStanding .selected)

/-- The entry of a predicate in a sequent that is built. -/
def entry (lists : HypLists) (p : Pred) : Hypothesis :=
  ⟨p, if p ∈ lists.given then .given else .derived,
    Sequent.standingAmong lists.hidden lists.selected p⟩

/-- What has an entry: the given hypotheses, and the derived ones that are not
    given. -/
def entered (lists : HypLists) : List Pred :=
  (SortedBy.ofList lists.given : SortedSet Pred).toList ++
    (SortedSet.diff (SortedBy.ofList lists.derived) (SortedBy.ofList lists.given)).toList

/-- What has an entry is given or derived. -/
theorem mem_entered : p ∈ lists.entered ↔ p ∈ lists.given ∨ p ∈ lists.derived := by
  have hsets : p ∈ lists.entered ↔ p ∈ (SortedBy.ofList lists.given : SortedSet Pred) ∨
      p ∈ SortedSet.diff (SortedBy.ofList lists.derived) (SortedBy.ofList lists.given) :=
    List.mem_append
  rw [hsets, SortedSet.mem_diff, SortedSet.mem_ofList, SortedSet.mem_ofList]
  by_cases hp : p ∈ lists.given
  · exact ⟨fun _ => .inl hp, fun _ => .inl hp⟩
  · exact ⟨.imp_right And.left, .imp_right fun hderived => ⟨hderived, hp⟩⟩

/-- The entries, given ones first. -/
theorem map_entry (lists : HypLists) :
    lists.entered.map lists.entry =
      (SortedBy.ofList lists.given : SortedSet Pred).toList.map
          (fun p => ⟨p, .given, Sequent.standingAmong lists.hidden lists.selected p⟩) ++
        (SortedSet.diff (SortedBy.ofList lists.derived) (SortedBy.ofList lists.given)).toList.map
          (fun p => ⟨p, .derived, Sequent.standingAmong lists.hidden lists.selected p⟩) := by
  rw [entered, List.map_append]
  congr 1
  · refine List.map_congr_left ?_
    intro p hp
    rw [entry, if_pos (SortedSet.mem_ofList.mp hp)]
  · refine List.map_congr_left ?_
    intro p hp
    have hnot : p ∉ lists.given := fun hgiven =>
      (SortedSet.mem_diff.mp hp).2 (SortedSet.mem_ofList.mpr hgiven)
    rw [entry, if_neg hnot]

/-- Building enters the hypotheses, after it has checked that what is hidden or
    selected is among them and not both. -/
theorem build_eq_ok (h : lists.build env goal = .ok s) :
    (∀ p, s.hypothesis? p = if p ∈ lists.entered then some (lists.entry p) else none) ∧
      (∀ p, p ∈ lists.hidden ∨ p ∈ lists.selected → p ∈ lists.entered) ∧
      ∀ p ∈ lists.hidden, p ∉ lists.selected := by
  have hstanding : ∀ p,
      (if p ∈ (SortedBy.ofList lists.hidden : SortedSet Pred) then Standing.hidden
        else if p ∈ (SortedBy.ofList lists.selected : SortedSet Pred) then .selected
        else .plain) = Sequent.standingAmong lists.hidden lists.selected p := by
    intro p
    simp only [Sequent.standingAmong, SortedSet.mem_ofList]
  simp only [build, Sequent.build, hstanding, ← map_entry] at h
  split at h
  · cases h
  · split at h
    · cases h
    · split at h
      · cases h
      · rename_i hstray
        split at h
        · cases h
        · rename_i hboth
          -- all checks passed, so `s` is the sequent with these entries
          cases h
          refine ⟨?_, ?_, ?_⟩
          · intro p
            exact SortedBy.find?_insertAll_map (fun _ => rfl) _ _ _
          · intro p hp
            have hlisted : p ∈ (SortedBy.ofList lists.hidden : SortedSet Pred).toList ++
                (SortedBy.ofList lists.selected : SortedSet Pred).toList :=
              List.mem_append.mpr (hp.imp SortedSet.mem_ofList.mpr SortedSet.mem_ofList.mpr)
            have hknown := List.find?_eq_none.mp hstray p hlisted
            rw [Bool.not_eq_true, Bool.not_eq_false', Bool.or_eq_true, decide_eq_true_iff,
              decide_eq_true_iff] at hknown
            exact List.mem_append.mpr hknown
          · intro p hhidden hselected
            have hnot := List.find?_eq_none.mp hboth p (SortedSet.mem_ofList.mpr hhidden)
            exact hnot (decide_eq_true (SortedSet.mem_ofList.mpr hselected))

/-- What is built has the members of the lists. -/
theorem fill_of_build (h : lists.build env goal = .ok s) : lists.Fill s := by
  obtain ⟨hentry, hknown, hapart⟩ := build_eq_ok h
  -- origin and standing are read off the entry, which depends on the lists only
  have horigin : ∀ {p origin}, p ∈ s.ofOrigin origin ↔
      p ∈ lists.entered ∧ (lists.entry p).origin = origin := by
    intro p origin
    rw [Sequent.mem_ofOrigin_iff, hentry p]
    by_cases hp : p ∈ lists.entered <;> simp [hp]
  have hstanding : ∀ {p standing}, p ∈ s.ofStanding standing ↔
      p ∈ lists.entered ∧ (lists.entry p).standing = standing := by
    intro p standing
    rw [Sequent.mem_ofStanding_iff, Sequent.standing?, hentry p]
    by_cases hp : p ∈ lists.entered <;> simp [hp]
  refine ⟨Sequent.enumerates_ofOrigin ?_, Sequent.enumerates_ofOrigin ?_,
    Sequent.enumerates_ofStanding ?_, Sequent.enumerates_ofStanding ?_⟩
  · intro p
    rw [horigin, mem_entered, entry]
    by_cases hp : p ∈ lists.given <;> simp [hp]
  · intro p
    rw [horigin, mem_entered, entry]
    by_cases hp : p ∈ lists.given <;> simp [hp]
  · intro p
    rw [hstanding, entry, Sequent.standingAmong]
    -- hidden wins over selected
    by_cases hp : p ∈ lists.hidden
    · simp [hp, hknown p (.inl hp)]
    · by_cases hp' : p ∈ lists.selected <;> simp [hp, hp']
  · intro p
    rw [hstanding, entry, Sequent.standingAmong]
    by_cases hp : p ∈ lists.selected
    · have hshown : p ∉ lists.hidden := fun hhidden => hapart p hhidden hp
      simp [hp, hshown, hknown p (.inr hp)]
    · by_cases hp' : p ∈ lists.hidden <;> simp [hp, hp']

/-- Order and repetition in the lists make no difference. -/
theorem Same.build (h : lists.Same other) (env : TypeEnv) (goal : Pred) :
    lists.build env goal = other.build env goal := by
  have hgiven : (SortedBy.ofList lists.given : SortedSet Pred) = SortedBy.ofList other.given :=
    SortedSet.insertAll_congr _ h.given
  have hderived : (SortedBy.ofList lists.derived : SortedSet Pred) =
      SortedBy.ofList other.derived := SortedSet.insertAll_congr _ h.derived
  have hhidden : (SortedBy.ofList lists.hidden : SortedSet Pred) =
      SortedBy.ofList other.hidden := SortedSet.insertAll_congr _ h.hidden
  have hselected : (SortedBy.ofList lists.selected : SortedSet Pred) =
      SortedBy.ofList other.selected := SortedSet.insertAll_congr _ h.selected
  simp only [HypLists.build, Sequent.build, hgiven, hderived, hhidden, hselected]

end HypLists

/-! ### Adding and marking -/

namespace Sequent

variable {s t : Sequent} {p : Pred} {ps qs : List Pred}

/-- New hypotheses join the derived ones. -/
theorem enumerates_addHyps (h : s.addHyps ps = some t) :
    Enumerates (fun p => p ∈ s.ofOrigin .derived ∨ p ∈ ps ∧ s.has p = false)
      (t.ofOrigin .derived) := by
  obtain ⟨-, rfl⟩ := addHyps_eq_some.mp h
  refine enumerates_ofOrigin ?_
  intro p
  rw [mem_ofOrigin_iff, hypothesis?_derive, has_mark]
  by_cases hnew : p ∈ ps ∧ s.has p = false
  · rw [if_pos hnew]
    exact ⟨fun _ => .inr hnew, fun _ => ⟨_, rfl, rfl⟩⟩
  · rw [if_neg hnew, ← mem_ofOrigin_iff, ofOrigin_mark]
    exact ⟨.inl, fun h => h.resolve_right hnew⟩

/-- A mark that leads to one standing puts the hypotheses it mentions into the
    set of that standing. -/
theorem enumerates_mark (s : Sequent) (ps : List Pred) {m : Mark} {standing : Standing}
    (hm : ∀ old, m.apply old = standing) :
    Enumerates (fun p => p ∈ s.ofStanding standing ∨ p ∈ ps ∧ s.has p = true)
      ((s.mark m ps).ofStanding standing) := by
  refine enumerates_ofStanding ?_
  intro p
  rw [mem_ofStanding_iff, mem_ofStanding_iff, standing?_mark, has_eq_isSome_standing?]
  cases s.standing? p with
  | none => simp
  | some old => by_cases hp : p ∈ ps <;> simp [hp, hm]

/-- Marking depends on the members only. -/
theorem mark_congr (s : Sequent) (m : Mark) (h : SameMembers ps qs) :
    s.mark m ps = s.mark m qs := by
  refine eq_of_parts rfl (SortedBy.ext_find? ?_) rfl
  intro p
  show (s.mark m ps).hypothesis? p = (s.mark m qs).hypothesis? p
  simp only [hypothesis?_mark, h p]

theorem derive_congr (s : Sequent) (standing : Standing) (h : SameMembers ps qs) :
    s.derive standing ps = s.derive standing qs := by
  refine eq_of_parts rfl (SortedBy.ext_find? ?_) rfl
  intro p
  show (s.derive standing ps).hypothesis? p = (s.derive standing qs).hypothesis? p
  simp only [hypothesis?_derive, h p]

theorem addHyps_congr (s : Sequent) (h : SameMembers ps qs) : s.addHyps ps = s.addHyps qs := by
  have hall : ps.all s.env.accepts = qs.all s.env.accepts := by
    rw [Bool.eq_iff_iff, List.all_eq_true, List.all_eq_true]
    exact forall_congr' fun p => by rw [h p]
  rw [addHyps, addHyps, hall, mark_congr s .show h, derive_congr _ .plain h]

end Sequent

/-- Types, typed names, expressions and predicates are totally ordered, by
    constructs and then by fields.  So a set of hypotheses is one list, whatever
    the order and number of insertions: by itself, in a sequent that is built,
    and in one to which hypotheses are added or whose hypotheses are marked. -/
theorem formulas_totally_ordered :
    (Orders Ty.Before compare ∧ Orders TypedName.Before compare ∧
        Orders Expr.Before compare ∧ Orders Pred.Before compare) ∧
      (∀ (set : SortedSet Pred) (l : List Pred),
        (∀ k, Enumerates (fun p => p ∈ set ∨ p ∈ l) k ↔ k = (set.insertAll l).toList) ∧
          ∀ m, SameMembers l m → set.insertAll l = set.insertAll m) ∧
      (∀ (lists : HypLists) (env : TypeEnv) (goal : Pred),
        (∀ s, lists.build env goal = .ok s → lists.Fill s) ∧
          ∀ other, lists.Same other → lists.build env goal = other.build env goal) ∧
      ∀ (s : Sequent) (ps : List Pred),
        (∀ t, s.addHyps ps = some t →
          Enumerates (fun p => p ∈ s.ofOrigin .derived ∨ p ∈ ps ∧ s.has p = false)
            (t.ofOrigin .derived)) ∧
          (∀ (m : Mark) (standing : Standing), (∀ old, m.apply old = standing) →
            Enumerates (fun p => p ∈ s.ofStanding standing ∨ p ∈ ps ∧ s.has p = true)
              ((s.mark m ps).ofStanding standing)) ∧
          ∀ qs, SameMembers ps qs →
            s.addHyps ps = s.addHyps qs ∧ ∀ m, s.mark m ps = s.mark m qs := by
  refine ⟨⟨orders_of_lt Ty.compare_lt, orders_of_lt TypedName.compare_lt,
    orders_of_lt Expr.compare_lt, orders_of_lt Pred.compare_lt⟩, ?_, ?_, ?_⟩
  · intro set l
    exact ⟨fun k => enumerates_iff set l, fun m hsame => set.insertAll_congr hsame⟩
  · intro lists env goal
    exact ⟨fun s hs => HypLists.fill_of_build hs, fun other hsame => hsame.build env goal⟩
  -- adding, marking, and both of them again for a list with the same members
  · intro s ps
    refine ⟨fun t ht => Sequent.enumerates_addHyps ht,
      fun m standing hm => s.enumerates_mark ps hm, ?_⟩
    intro qs hsame
    exact ⟨s.addHyps_congr hsame, fun m => s.mark_congr m hsame⟩

/-- Two quantifiers differ in the length of their declarations; hypotheses are
    listed twice, and one is given and derived. -/
theorem shuffled_hypotheses_agree :
    let narrow : Pred := .quantified .universal [⟨"x", .integer⟩] .bottom
    let wide : Pred := .quantified .universal [⟨"x", .integer⟩, ⟨"y", .boolean⟩] .top
    let lists : HypLists := ⟨[wide, .not .top, narrow, .not .top], [.top, wide], [narrow], [wide]⟩
    let other : HypLists :=
      ⟨[.not .top, narrow, wide, wide], [wide, .top, .top], [narrow, narrow], [wide]⟩
    narrow.Before wide ∧
      (SortedBy.ofList [wide, narrow, .top] : SortedSet Pred) =
        SortedBy.ofList [.top, wide, .top, narrow] ∧
      ∃ s t : Sequent, lists.build .empty .top = .ok s ∧ other.build .empty .top = .ok s ∧
        s.ofOrigin .given = [.not .top, narrow, wide] ∧ lists.Fill s ∧
        s.addHyps [wide, .bottom] = some t ∧ s.addHyps [.bottom, wide, .bottom] = some t ∧
        Enumerates (fun p => p ∈ s.ofOrigin .derived ∨ p ∈ [wide, .bottom] ∧ s.has p = false)
          [.top, .bottom] ∧
        Enumerates (fun p => p ∈ s.ofStanding .selected ∨ p ∈ [.bottom, .top] ∧ s.has p = true)
          [.top, wide] ∧
        s.mark .select [.bottom, .top] = s.mark .select [.top, .bottom, .top] := by
  intro narrow wide lists other
  obtain ⟨⟨-, -, -, hpred⟩, hset, hbuild, hchange⟩ := formulas_totally_ordered
  let s : Sequent := ⟨.empty, SortedBy.ofList [⟨.top, .derived, .plain⟩,
    ⟨.not .top, .given, .plain⟩, ⟨narrow, .given, .hidden⟩, ⟨wide, .given, .selected⟩], .top⟩
  let t : Sequent := ⟨.empty, SortedBy.ofList [⟨.top, .derived, .plain⟩,
    ⟨.bottom, .derived, .plain⟩, ⟨.not .top, .given, .plain⟩, ⟨narrow, .given, .hidden⟩,
    ⟨wide, .given, .selected⟩], .top⟩
  have hs : lists.build .empty .top = .ok s := by with_unfolding_all rfl
  have hsame : lists.Same other :=
    ⟨by decide +kernel, by decide +kernel, by decide +kernel, by decide +kernel⟩
  have ht : s.addHyps [wide, .bottom] = some t := by with_unfolding_all rfl
  have hderived : t.ofOrigin .derived = [.top, .bottom] := by decide +kernel
  have hselected : (s.mark .select [.bottom, .top]).ofStanding .selected = [.top, wide] := by
    decide +kernel
  -- each part from the theorem, at these lists
  refine ⟨(hpred.lt_iff _ _).mp (by decide +kernel), (hset ∅ _).2 _ (by decide +kernel), s, t, hs,
    ?_, by decide +kernel, (hbuild lists .empty .top).1 s hs, ht, ?_, ?_, ?_, ?_⟩
  · rw [← (hbuild lists .empty .top).2 other hsame, hs]
  · rw [← ((hchange s [wide, .bottom]).2.2 _ (by decide +kernel)).1, ht]
  · rw [← hderived]
    exact (hchange s [wide, .bottom]).1 t ht
  · rw [← hselected]
    exact (hchange s [.bottom, .top]).2.1 .select .selected fun _ => rfl
  · exact ((hchange s [.bottom, .top]).2.2 _ (by decide +kernel)).2 .select

end SequentProver
