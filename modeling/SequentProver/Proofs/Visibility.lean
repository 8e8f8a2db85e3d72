import SequentProver.Proofs.ChildSequent
import SequentProver.Proofs.SequentEquality
import SequentProver.Proofs.Standings

/-! # Visibility

    How a hypothesis stands is a matter of the calls that mention it, in
    their order, and of nothing else.  Environment, goal and hypotheses stay
    as they are through any calls.

    The standings can also be kept as two sets, the hidden and the selected
    hypotheses.  A call then goes through its list and changes both sets,
    while its tests ask the sets as they were before the call; it does not
    matter that they are out of date when a predicate is repeated.

    Route:
    1. `settle`, the standing of one predicate through a list of calls;
    2. `markAll`, which is determined by `settle`;
    3. `Desk`, the two sets, and the loop over the list of a call;
    4. the law for any calls. -/

namespace SequentProver

/-- A call that marks the hypotheses among `preds`. -/
structure MarkCall where
  mark : Mark
  preds : List Pred
  deriving DecidableEq

/-! ## One predicate through the calls -/

namespace MarkCall

variable {c : MarkCall} {calls more : List MarkCall} {p : Pred} {standing : Standing}

/-- What a standing of `p` becomes by the calls that mention `p`. -/
def settle (calls : List MarkCall) (p : Pred) (standing : Standing) : Standing :=
  (calls.filter fun c => p ∈ c.preds).foldl (fun now c => c.mark.apply now) standing

@[simp] theorem settle_nil : settle [] p standing = standing := rfl

/-- The first call, and then the others. -/
@[simp] theorem settle_cons : settle (c :: calls) p standing =
    settle calls p (if p ∈ c.preds then c.mark.apply standing else standing) := by
  rw [settle, List.filter_cons]
  by_cases hp : p ∈ c.preds
  · rw [if_pos (decide_eq_true hp), if_pos hp, List.foldl_cons]
    rfl
  · rw [if_neg (by rw [decide_eq_true_iff]; exact hp), if_neg hp]
    rfl

theorem settle_append :
    settle (calls ++ more) p standing = settle more p (settle calls p standing) := by
  rw [settle, List.filter_append, List.foldl_append]
  rfl

/-- A predicate that is not mentioned keeps its standing. -/
theorem settle_of_unmentioned (h : ∀ c ∈ calls, p ∉ c.preds) :
    settle calls p standing = standing := by
  induction calls generalizing standing with
  | nil => rfl
  | cons c calls ih =>
      rw [settle_cons, if_neg (h c List.mem_cons_self)]
      exact ih fun c' hc' => h c' (List.mem_cons_of_mem _ hc')

/-- Calls that mention nothing in common may change places. -/
theorem settle_comm (h : ∀ c ∈ calls, ∀ d ∈ more, List.Disjoint c.preds d.preds) :
    settle (calls ++ more) p standing = settle (more ++ calls) p standing := by
  rw [settle_append, settle_append]
  by_cases hp : ∃ c ∈ calls, p ∈ c.preds
  · obtain ⟨c, hc, hmem⟩ := hp
    have hmore : ∀ d ∈ more, p ∉ d.preds := fun d hd hmem' => h c hc d hd hmem hmem'
    rw [settle_of_unmentioned hmore, settle_of_unmentioned hmore]
  · have hcalls : ∀ c ∈ calls, p ∉ c.preds := fun c hc hmem => hp ⟨c, hc, hmem⟩
    rw [settle_of_unmentioned hcalls, settle_of_unmentioned hcalls]

end MarkCall

open MarkCall (settle settle_cons settle_comm settle_of_unmentioned)

/-! ## Sequents through the calls -/

/-- A hypothesis after the calls. -/
def Hypothesis.settled (calls : List MarkCall) (h : Hypothesis) : Hypothesis :=
  { h with standing := settle calls h.pred h.standing }

namespace Sequent

variable {s t : Sequent} {calls more : List MarkCall} {p : Pred} {standing : Standing}

/-- Calls one after another. -/
def markAll (s : Sequent) (calls : List MarkCall) : Sequent :=
  calls.foldl (fun now c => now.mark c.mark c.preds) s

theorem markAll_cons (s : Sequent) (c : MarkCall) (calls : List MarkCall) :
    s.markAll (c :: calls) = (s.mark c.mark c.preds).markAll calls := rfl

theorem markAll_append (s : Sequent) (calls more : List MarkCall) :
    s.markAll (calls ++ more) = (s.markAll calls).markAll more := List.foldl_append

/-- Calls do not touch the environment. -/
theorem env_markAll (s : Sequent) (calls : List MarkCall) : (s.markAll calls).env = s.env := by
  induction calls generalizing s with
  | nil => rfl
  | cons c calls ih => exact ih _

theorem goal_markAll (s : Sequent) (calls : List MarkCall) : (s.markAll calls).goal = s.goal := by
  induction calls generalizing s with
  | nil => rfl
  | cons c calls ih => exact ih _

theorem ofOrigin_markAll (s : Sequent) (calls : List MarkCall) (origin : Origin) :
    (s.markAll calls).ofOrigin origin = s.ofOrigin origin := by
  induction calls generalizing s with
  | nil => rfl
  | cons c calls ih => rw [markAll_cons, ih, ofOrigin_mark]

theorem hypotheses_markAll (s : Sequent) (calls : List MarkCall) :
    (s.markAll calls).hypotheses = s.hypotheses := by
  rw [hypotheses, ofOrigin_markAll, ofOrigin_markAll, hypotheses]

theorem has_markAll (s : Sequent) (calls : List MarkCall) (p : Pred) :
    (s.markAll calls).has p = s.has p := by
  induction calls generalizing s with
  | nil => rfl
  | cons c calls ih => rw [markAll_cons, ih, has_mark]

/-- Every entry is settled by the calls. -/
theorem toList_markAll (s : Sequent) (calls : List MarkCall) :
    (s.markAll calls).hyps.toList = s.hyps.toList.map (Hypothesis.settled calls) := by
  induction calls generalizing s with
  | nil => exact (List.map_id' _).symm
  | cons c calls ih =>
      rw [markAll_cons, ih]
      show (s.hyps.toList.map _).map _ = _
      rw [List.map_map]
      refine List.map_congr_left ?_
      intro h _
      rw [Function.comp_apply, Hypothesis.settled, Hypothesis.settled, settle_cons]
      by_cases hp : h.pred ∈ c.preds
      · rw [if_pos hp, if_pos hp]
      · rw [if_neg hp, if_neg hp]

theorem eq_of_parts (henv : s.env = t.env) (hhyps : s.hyps = t.hyps) (hgoal : s.goal = t.goal) :
    s = t := by
  cases s
  cases t
  cases henv
  cases hhyps
  cases hgoal
  rfl

/-- Calls that settle every hypothesis alike do the same to a sequent. -/
theorem markAll_congr
    (h : ∀ x ∈ s.hyps.toList, settle calls x.pred x.standing = settle more x.pred x.standing) :
    s.markAll calls = s.markAll more := by
  have hhyps : (s.markAll calls).hyps = (s.markAll more).hyps := by
    refine SortedBy.ext_toList ?_
    rw [toList_markAll, toList_markAll]
    refine List.map_congr_left ?_
    intro x hx
    rw [Hypothesis.settled, Hypothesis.settled, h x hx]
  exact eq_of_parts (by rw [env_markAll, env_markAll]) hhyps (by rw [goal_markAll, goal_markAll])

/-! ## Standings -/

/-- How a predicate stands, if it is a hypothesis. -/
def standing? (s : Sequent) (p : Pred) : Option Standing :=
  (s.hypothesis? p).map Hypothesis.standing

/-- A standing is the one that is looked up. -/
theorem stands_iff_standing? : s.stands standing p = true ↔ s.standing? p = some standing := by
  rw [stands_iff, standing?, Option.map_eq_some_iff]

theorem has_eq_isSome_standing? (s : Sequent) (p : Pred) : s.has p = (s.standing? p).isSome := by
  rw [has_eq_isSome, standing?, Option.isSome_map]

/-- A call changes the standings of its predicates. -/
theorem standing?_mark (s : Sequent) (m : Mark) (ps : List Pred) (p : Pred) :
    (s.mark m ps).standing? p =
      (s.standing? p).map fun standing => if p ∈ ps then m.apply standing else standing := by
  rw [standing?, hypothesis?_mark, standing?, Option.map_map, Option.map_map]
  congr 1
  funext h
  by_cases hp : p ∈ ps
  · simp only [Function.comp_apply, if_pos hp]
  · simp only [Function.comp_apply, if_neg hp]

theorem standing?_markAll (s : Sequent) (calls : List MarkCall) (p : Pred) :
    (s.markAll calls).standing? p = (s.standing? p).map (settle calls p) := by
  induction calls generalizing s with
  | nil => exact Option.map_id'.symm
  | cons c calls ih =>
      rw [markAll_cons, ih, standing?_mark, Option.map_map]
      congr 1
      funext standing
      rw [Function.comp_apply, settle_cons]

/-! ## Two sets -/

end Sequent

/-- The hidden and the selected hypotheses. -/
structure Desk where
  hidden : SortedSet Pred
  selected : SortedSet Pred
  deriving DecidableEq

namespace Desk

/-- All but one predicate. -/
def without (p : Pred) (set : SortedSet Pred) : SortedSet Pred := set.filter fun q => q ≠ p

@[simp] theorem mem_without {p q : Pred} {set : SortedSet Pred} :
    q ∈ without p set ↔ q ∈ set ∧ q ≠ p := by
  rw [without, SortedSet.mem_filter, decide_eq_true_iff]

/-- The next predicate in the list of a call.  The tests ask `old`, the desk
    before the call; what changes is `now`. -/
def next (isHyp : Pred → Bool) (m : Mark) (old now : Desk) (p : Pred) : Desk :=
  match m with
  | .select =>
    if isHyp p then
      ⟨if p ∈ old.hidden then without p now.hidden else now.hidden,
        if p ∈ old.selected then now.selected else now.selected.insert p⟩
    else now
  | .deselect =>
    if p ∈ old.selected then { now with selected := without p now.selected } else now
  | .hide =>
    if isHyp p then
      ⟨if p ∈ old.hidden then now.hidden else now.hidden.insert p,
        if p ∈ old.selected then without p now.selected else now.selected⟩
    else now
  | .show => if p ∈ old.hidden then { now with hidden := without p now.hidden } else now

/-- A call on a desk, where `isHyp` tells the hypotheses. -/
def mark (isHyp : Pred → Bool) (d : Desk) (c : MarkCall) : Desk :=
  c.preds.foldl (next isHyp c.mark d) d

/-- A desk is known by its members. -/
theorem ext_mem {d e : Desk} (hhidden : ∀ p, p ∈ d.hidden ↔ p ∈ e.hidden)
    (hselected : ∀ p, p ∈ d.selected ↔ p ∈ e.selected) : d = e := by
  cases d
  cases e
  cases SortedSet.ext_mem hhidden
  cases SortedSet.ext_mem hselected
  rfl

/-- A predicate of the list changes nothing about the others. -/
theorem mem_next_of_ne {isHyp : Pred → Bool} {m : Mark} {old now : Desk} {p q : Pred}
    (hne : p ≠ q) : (p ∈ (next isHyp m old now q).hidden ↔ p ∈ now.hidden) ∧
      (p ∈ (next isHyp m old now q).selected ↔ p ∈ now.selected) := by
  cases m <;> simp only [next] <;> split_ifs <;> simp [hne]

end Desk

namespace Sequent

variable {s : Sequent} {p : Pred}

/-- The hidden and the selected hypotheses of a sequent. -/
def desk (s : Sequent) : Desk :=
  ⟨⟨s.ofStanding .hidden, s.increasing_ofStanding .hidden⟩,
    ⟨s.ofStanding .selected, s.increasing_ofStanding .selected⟩⟩

/-- The entry of a predicate is the one that has it. -/
theorem hypothesis?_eq_some {h : Hypothesis} :
    s.hypothesis? p = some h ↔ h ∈ s.hyps.toList ∧ h.pred = p :=
  find?_key_eq_some s.hyps.nodup_keys

theorem mem_ofStanding_iff {standing : Standing} :
    p ∈ s.ofStanding standing ↔ s.standing? p = some standing := by
  rw [mem_ofStanding, standing?, Option.map_eq_some_iff]
  constructor
  · rintro ⟨h, hmem, hstanding, hpred⟩
    exact ⟨h, hypothesis?_eq_some.mpr ⟨hmem, hpred⟩, hstanding⟩
  · rintro ⟨h, hentry, hstanding⟩
    obtain ⟨hmem, hpred⟩ := hypothesis?_eq_some.mp hentry
    exact ⟨h, hmem, hstanding, hpred⟩

theorem mem_hidden_desk : p ∈ s.desk.hidden ↔ s.standing? p = some .hidden := mem_ofStanding_iff

/-- The selected ones on the desk. -/
theorem mem_selected_desk : p ∈ s.desk.selected ↔ s.standing? p = some .selected :=
  mem_ofStanding_iff

/-- One predicate further.  When the loop has gone through `done`, the sets are
    those of the sequent that is marked there. -/
theorem next_desk (s : Sequent) (m : Mark) (done : List Pred) (q : Pred) :
    Desk.next s.has m s.desk (s.mark m done).desk q = (s.mark m (done ++ [q])).desk := by
  have hat : ∀ p, (p ∈ (Desk.next s.has m s.desk (s.mark m done).desk q).hidden ↔
        p ∈ (s.mark m (done ++ [q])).desk.hidden) ∧
      (p ∈ (Desk.next s.has m s.desk (s.mark m done).desk q).selected ↔
        p ∈ (s.mark m (done ++ [q])).desk.selected) := by
    intro p
    by_cases hpq : p = q
    · subst hpq
      have hlast : p ∈ done ++ [p] := List.mem_append_right _ (List.mem_singleton.mpr rfl)
      -- whether `p` was in `done` makes no difference: the tests ask the old sets
      cases m <;> simp only [Desk.next, mem_hidden_desk, mem_selected_desk, has_eq_isSome_standing?,
        standing?_mark, if_pos hlast] <;> cases hs : s.standing? p with
      | none => simp [mem_hidden_desk, mem_selected_desk, standing?_mark, hs]
      | some standing =>
          by_cases hdone : p ∈ done <;> cases standing <;>
            simp [mem_hidden_desk, mem_selected_desk, standing?_mark, hs, hdone, Mark.apply]
    · have hmem : p ∈ done ++ [q] ↔ p ∈ done := by simp [hpq]
      rw [(Desk.mem_next_of_ne hpq).1, (Desk.mem_next_of_ne hpq).2, mem_hidden_desk, mem_hidden_desk,
        mem_selected_desk, mem_selected_desk, standing?_mark, standing?_mark]
      simp only [hmem, and_self]
  exact Desk.ext_mem (fun p => (hat p).1) fun p => (hat p).2

/-- The loop of a call over a desk: after some predicates, the desk is that of
    the sequent marked so far. -/
theorem foldl_next_desk (s : Sequent) (m : Mark) (done rest : List Pred) :
    rest.foldl (Desk.next s.has m s.desk) (s.mark m done).desk = (s.mark m (done ++ rest)).desk := by
  induction rest generalizing done with
  | nil => rw [List.append_nil, List.foldl_nil]
  | cons q rest ih =>
      rw [List.foldl_cons, next_desk, ih, List.append_assoc, List.singleton_append]

/-- A call does to the two sets what it does to the sequent. -/
theorem desk_mark (s : Sequent) (c : MarkCall) :
    (s.mark c.mark c.preds).desk = s.desk.mark s.has c := by
  have hloop := foldl_next_desk s c.mark [] c.preds
  rw [mark_nil, List.nil_append] at hloop
  exact hloop.symm

/-- The loops of all calls, one after the other. -/
theorem desk_markAll (s : Sequent) (calls : List MarkCall) :
    (s.markAll calls).desk = calls.foldl (Desk.mark s.has) s.desk := by
  induction calls generalizing s with
  | nil => rfl
  | cons c calls ih =>
      have hhas : (s.mark c.mark c.preds).has = s.has := funext fun p => has_mark s _ _ p
      rw [markAll_cons, ih, hhas, desk_mark, List.foldl_cons]

/-! ## Any calls -/

/-- What becomes of `s` by the calls: every hypothesis stands as the calls that
    mention it say, and the two sets come out of their loops. -/
structure MarkedBy (calls : List MarkCall) (s t : Sequent) : Prop where
  env : t.env = s.env
  goal : t.goal = s.goal
  hypotheses : t.hypotheses = s.hypotheses
  standing : ∀ p ∈ s.hypotheses, ∃ standing,
    s.stands standing p = true ∧ t.stands (settle calls p standing) p = true
  desk : t.desk = calls.foldl (Desk.mark s.has) s.desk
  apart : ∀ p, p ∈ t.desk.hidden → p ∉ t.desk.selected

/-- Calls do all that is said of them. -/
theorem markedBy_markAll (s : Sequent) (calls : List MarkCall) :
    MarkedBy calls s (s.markAll calls) where
  env := s.env_markAll calls
  goal := s.goal_markAll calls
  hypotheses := s.hypotheses_markAll calls
  standing := by
    intro p hp
    rw [mem_hypotheses, has_eq_isSome_standing?] at hp
    obtain ⟨standing, hstanding⟩ := Option.isSome_iff_exists.mp hp
    refine ⟨standing, stands_iff_standing?.mpr hstanding, stands_iff_standing?.mpr ?_⟩
    rw [standing?_markAll, hstanding, Option.map_some]
  desk := s.desk_markAll calls
  apart := by
    intro p hhidden hselected
    exact disjoint_ofStanding (by decide) hhidden hselected

/-- Visibility is decided hypothesis by hypothesis: the calls that mention one
    settle how it stands.  So calls on disjoint lists may change places, and
    calls that mention no hypothesis do nothing. -/
theorem visibility_settled (s : Sequent) (calls : List MarkCall) :
    MarkedBy calls s (s.markAll calls) ∧
      (∀ more : List MarkCall, (∀ c ∈ calls, ∀ d ∈ more, List.Disjoint c.preds d.preds) →
        s.markAll (calls ++ more) = s.markAll (more ++ calls)) ∧
      ((∀ c ∈ calls, ∀ p ∈ c.preds, s.has p = false) → s.markAll calls = s) := by
  refine ⟨s.markedBy_markAll calls, ?_, ?_⟩
  · intro more hdisjoint
    exact markAll_congr fun x _ => settle_comm hdisjoint
  · intro hnone
    have hsame : s.markAll calls = s.markAll [] := by
      refine markAll_congr ?_
      intro x hx
      refine settle_of_unmentioned ?_
      intro c hc hmem
      have hthere : s.has x.pred = true := SortedBy.hasKey_iff.mpr ⟨x, hx, rfl⟩
      rw [hnone c hc x.pred hmem] at hthere
      cases hthere
    exact hsame

/-- A hypothesis is mentioned twice in a list and hidden right after it was
    selected; elsewhere one is shown, and a predicate that is no hypothesis is
    named. -/
theorem shuffled_settled :
    ∃ s : Sequent, build .empty [.top, .bottom] [.not .top] [.bottom, .not .top] [.top] .top = .ok s ∧
      let calls : List MarkCall := [⟨.select, [.bottom, .bottom]⟩, ⟨.hide, [.bottom, .top]⟩]
      let more : List MarkCall := [⟨.show, [.not .top]⟩, ⟨.select, [.not .bottom]⟩]
      (s.markAll calls).ofStanding .hidden = [.top, .bottom, .not .top] ∧
        (s.markAll more).ofStanding .plain = [.not .top] ∧
        s.markAll (calls ++ more) = s.markAll (more ++ calls) ∧
        s.markAll [⟨.select, [.not .bottom]⟩] = s := by
  let s : Sequent := ⟨.empty, SortedBy.ofList [⟨.top, .given, .selected⟩, ⟨.bottom, .given, .hidden⟩,
    ⟨.not .top, .derived, .hidden⟩], .top⟩
  have hs : build .empty [.top, .bottom] [.not .top] [.bottom, .not .top] [.top] .top = .ok s := rfl
  refine ⟨s, hs, by decide +kernel, by decide +kernel, ?_, ?_⟩
  · exact (visibility_settled s _).2.1 _ (by simp [List.Disjoint])
  · exact (visibility_settled s _).2.2 (by decide +kernel)

end Sequent

end SequentProver
