import SequentProver.Proofs.Coherence
import SequentProver.Proofs.Origins
import SequentProver.Proofs.Workbench

/-! # When two sequents are the same

    A sequent is compared entry by entry, in the order of the predicates.
    That is a comparison of sets: same environment, same goal, and the same
    predicates among the hypotheses, the hidden and the selected ones.  It
    can also be done without putting given and derived hypotheses together:
    if there are equally many, it is enough that those of one sequent are
    hypotheses of the other.

    Sequents that are the same cannot be told apart: every rule makes the
    same children of them, and their fingerprints are equal.

    Route:
    1. `SameSets`, and how a standing is read off the two sets;
    2. `sameByCount`, the comparison by numbers;
    3. what becomes of sequents that are the same. -/

namespace SequentProver

namespace Sequent

variable {s t : Sequent} {p : Pred}

/-! ## Sets of predicates -/

/-- Two sequents have the same environment, the same goal and the same sets
    of predicates. -/
structure SameSets (s t : Sequent) : Prop where
  env : s.env = t.env
  goal : s.goal = t.goal
  hidden : ∀ p, p ∈ s.ofStanding .hidden ↔ p ∈ t.ofStanding .hidden
  selected : ∀ p, p ∈ s.ofStanding .selected ↔ p ∈ t.ofStanding .selected
  hypotheses : ∀ p, p ∈ s.hypotheses ↔ p ∈ t.hypotheses

/-- The predicates stand in order. -/
theorem increasing_preds (s : Sequent) :
    IncreasingBy (fun p : Pred => p) (s.hyps.toList.map Hypothesis.pred) :=
  List.pairwise_map.mpr s.hyps.sorted

theorem increasing_ofStanding (s : Sequent) (standing : Standing) :
    IncreasingBy (fun p : Pred => p) (s.ofStanding standing) :=
  s.increasing_preds.sublist ((List.filter_sublist (l := s.hyps.toList)).map Hypothesis.pred)

/-- In order, a set of predicates is one list. -/
theorem ofStanding_eq_iff {standing : Standing} :
    s.ofStanding standing = t.ofStanding standing ↔
      ∀ p, p ∈ s.ofStanding standing ↔ p ∈ t.ofStanding standing := by
  constructor
  · intro h p
    rw [h]
  · exact SortedSet.eq_of_increasing (s.increasing_ofStanding _) (t.increasing_ofStanding _)

/-- The entries as `sameAs` sees them. -/
def entries (s : Sequent) : List (Pred × Standing) :=
  s.hyps.toList.map fun h => (h.pred, h.standing)

/-- Sequents are the same by goal, environment and entries. -/
theorem sameAs_iff_entries :
    s.sameAs t = true ↔ s.goal = t.goal ∧ s.env = t.env ∧ s.entries = t.entries := by
  simp only [sameAs, entries, Bool.and_eq_true, decide_eq_true_eq, and_assoc]

/-- The predicates of a standing, from the entries. -/
theorem ofStanding_eq_entries (s : Sequent) (standing : Standing) :
    s.ofStanding standing = (s.entries.filter fun e => e.2 = standing).map Prod.fst := by
  rw [entries, List.filter_map, List.map_map]
  rfl

/-- The standing of a hypothesis, told from the hidden and the selected ones. -/
def standingAmong (hidden selected : List Pred) (p : Pred) : Standing :=
  if p ∈ hidden then .hidden else if p ∈ selected then .selected else .plain

/-- The standing of a hypothesis is told from the two sets. -/
theorem standing_eq_among {h : Hypothesis} (hmem : h ∈ s.hyps.toList) :
    h.standing = standingAmong (s.ofStanding .hidden) (s.ofStanding .selected) h.pred := by
  -- the entry of a predicate is the only one, so its standing decides both sets
  have hin : ∀ standing, h.pred ∈ s.ofStanding standing ↔ h.standing = standing := by
    intro standing
    rw [mem_ofStanding]
    constructor
    · rintro ⟨h', hmem', hstanding, hpred⟩
      rw [← hstanding, SortedBy.eq_of_key hmem' hmem hpred]
    · intro hstanding
      exact ⟨h, hmem, hstanding, rfl⟩
  rw [standingAmong]
  simp only [hin]
  cases h.standing <;> rfl

/-- The entries are determined by the sets. -/
theorem entries_eq (s : Sequent) :
    s.entries = (s.hyps.toList.map Hypothesis.pred).map fun p =>
      (p, standingAmong (s.ofStanding .hidden) (s.ofStanding .selected) p) := by
  rw [entries, List.map_map]
  refine List.map_congr_left ?_
  intro h hmem
  show (h.pred, h.standing) = _
  rw [standing_eq_among hmem]
  rfl

/-- The same sets make the same entries. -/
theorem SameSets.entries (h : s.SameSets t) : s.entries = t.entries := by
  have hpreds : s.hyps.toList.map Hypothesis.pred = t.hyps.toList.map Hypothesis.pred := by
    refine SortedSet.eq_of_increasing s.increasing_preds t.increasing_preds ?_
    intro p
    have hmem : ∀ v : Sequent, p ∈ v.hyps.toList.map Hypothesis.pred ↔ p ∈ v.hypotheses := by
      intro v
      rw [mem_hypotheses, has, SortedBy.hasKey_iff, List.mem_map]
    rw [hmem, hmem]
    exact h.hypotheses p
  rw [entries_eq, entries_eq, hpreds, ofStanding_eq_iff.mpr h.hidden,
    ofStanding_eq_iff.mpr h.selected]

/-- Sequents are the same when their sets are. -/
theorem sameAs_iff_sets : s.sameAs t = true ↔ s.SameSets t := by
  rw [sameAs_iff_entries]
  constructor
  · rintro ⟨hgoal, henv, hentries⟩
    have hstanding : ∀ standing, s.ofStanding standing = t.ofStanding standing := by
      intro standing
      rw [ofStanding_eq_entries, ofStanding_eq_entries, hentries]
    refine ⟨henv, hgoal, ofStanding_eq_iff.mp (hstanding _), ofStanding_eq_iff.mp (hstanding _), ?_⟩
    intro p
    have hhas := (sameAs_spec (sameAs_iff_entries.mpr ⟨hgoal, henv, hentries⟩)).2.2 p
    rw [mem_hypotheses, mem_hypotheses, hhas]
  · intro h
    exact ⟨h.goal, h.env, h.entries⟩

/-! ## Comparison by numbers -/

/-- Same goal, environment, hidden and selected hypotheses, equally many
    hypotheses, and those of `s` among those of `t`. -/
def sameByCount (s t : Sequent) : Bool :=
  s.goal = t.goal && s.env = t.env &&
    s.ofStanding .hidden = t.ofStanding .hidden &&
    s.ofStanding .selected = t.ofStanding .selected &&
    s.hypotheses.length = t.hypotheses.length && t.hasAll s.hypotheses

/-- No hypothesis is listed twice. -/
theorem nodup_hypotheses (s : Sequent) : s.hypotheses.Nodup := by
  have hpreds : (s.hyps.toList.map Hypothesis.pred).Nodup := s.hyps.nodup_keys
  have horigin : ∀ origin, (s.ofOrigin origin).Nodup := by
    intro origin
    exact hpreds.sublist ((List.filter_sublist (l := s.hyps.toList)).map Hypothesis.pred)
  exact (horigin _).append (horigin _) (disjoint_ofOrigin (by decide))

/-- With equally many hypotheses, containment one way is containment both
    ways. -/
theorem mem_hypotheses_of_count (hcount : s.hypotheses.length = t.hypotheses.length)
    (hall : t.hasAll s.hypotheses = true) : p ∈ s.hypotheses ↔ p ∈ t.hypotheses := by
  have hsubset : s.hypotheses ⊆ t.hypotheses := by
    intro q hq
    exact mem_hypotheses.mpr (hasAll_iff.mp hall q hq)
  have hperm : s.hypotheses.Perm t.hypotheses :=
    (List.subperm_of_subset s.nodup_hypotheses hsubset).perm_of_length_le
      (Nat.le_of_eq hcount.symm)
  exact hperm.mem_iff

/-- Counting is enough: sequents that pass have the same sets. -/
theorem sameByCount_iff_sets : s.sameByCount t = true ↔ s.SameSets t := by
  simp only [sameByCount, Bool.and_eq_true, decide_eq_true_eq, ofStanding_eq_iff]
  constructor
  · rintro ⟨⟨⟨⟨⟨hgoal, henv⟩, hhidden⟩, hselected⟩, hcount⟩, hall⟩
    exact ⟨henv, hgoal, hhidden, hselected, fun p => mem_hypotheses_of_count hcount hall⟩
  · intro h
    have hperm : s.hypotheses.Perm t.hypotheses :=
      (List.perm_ext_iff_of_nodup s.nodup_hypotheses t.nodup_hypotheses).mpr h.hypotheses
    refine ⟨⟨⟨⟨⟨h.goal, h.env⟩, h.hidden⟩, h.selected⟩, hperm.length_eq⟩, ?_⟩
    rw [hasAll_iff]
    intro p hp
    exact mem_hypotheses.mp ((h.hypotheses p).mp hp)

/-! ## Sequents that are the same -/

theorem sameAs_symm (h : s.sameAs t = true) : t.sameAs s = true :=
  sameAs_trans t.sameAs_refl h

/-- Being the same is an equivalence. -/
theorem sameAs_equivalence : Equivalence fun s t : Sequent => s.sameAs t = true where
  refl := sameAs_refl
  symm := sameAs_symm
  trans hst htu := sameAs_trans hst (sameAs_symm htu)

/-- The hypotheses in a fingerprint are the entries. -/
theorem contentFields_eq_entries (s : Sequent) :
    s.contentFields = Content.fields "env" (s.env.idents.map TypedName.text) ++
      s.entries.map (fun e => (e.2.tag, e.1.text)) ++ [("goal", s.goal.text)] := by
  rw [contentFields, entries, List.map_map]
  rfl

/-- Sequents that are the same have the same content. -/
theorem contentFields_of_sameAs (h : s.sameAs t = true) : s.contentFields = t.contentFields := by
  obtain ⟨hgoal, henv, hentries⟩ := sameAs_iff_entries.mp h
  rw [contentFields_eq_entries, contentFields_eq_entries, hgoal, henv, hentries]

/-- A fingerprint does not depend on where hypotheses come from. -/
theorem fingerprint_of_sameAs (h : s.sameAs t = true) : s.fingerprint = t.fingerprint := by
  rw [fingerprint, fingerprint, contentFields_of_sameAs h]

end Sequent

/-- The outcomes of a rule on two sequents: no result on both, or children
    that are the same one by one, with the same actions skipped. -/
def Rule.SameOutcome : Option (List Sequent × SkippedActions) →
    Option (List Sequent × SkippedActions) → Prop :=
  Option.Rel fun e e' =>
    List.Forall₂ (fun k k' : Sequent => k.sameAs k' = true) e.1 e'.1 ∧ e.2 = e'.2

/-- A rule cannot tell sequents apart that are the same. -/
theorem Rule.sameOutcome_of_sameAs {s t : Sequent} (h : s.sameAs t = true) (r : Rule) :
    SameOutcome (r.expand s) (r.expand t) := by
  cases hs : r.expand s with
  | some expanded =>
      obtain ⟨kids, skipped⟩ := expanded
      obtain ⟨kids', ht, hsame⟩ := expand_of_sameAs h hs
      rw [ht]
      exact .some ⟨hsame, rfl⟩
  | none =>
      cases ht : r.expand t with
      | none => exact .none
      | some expanded =>
          -- a result on `t` would be one on `s`
          obtain ⟨kids, hkids, -⟩ := expand_of_sameAs (Sequent.sameAs_symm h) ht
          rw [hs] at hkids
          cases hkids

namespace Sequent

/-- Being the same is having the same sets, by whatever comparison; it is an
    equivalence, and sequents that are the same have the same children by
    every rule and the same fingerprint. -/
theorem same_sets_interchangeable :
    (∀ s t : Sequent, (s.sameAs t = true ↔ s.SameSets t) ∧ s.sameAs t = s.sameByCount t) ∧
      Equivalence (fun s t : Sequent => s.sameAs t = true) ∧
      ∀ s t : Sequent, s.sameAs t = true →
        (∀ r : Rule, Rule.SameOutcome (r.expand s) (r.expand t)) ∧
          s.fingerprint = t.fingerprint := by
  refine ⟨?_, sameAs_equivalence, ?_⟩
  · intro s t
    refine ⟨sameAs_iff_sets, ?_⟩
    rw [Bool.eq_iff_iff, sameAs_iff_sets, sameByCount_iff_sets]
  · intro s t h
    exact ⟨fun r => r.sameOutcome_of_sameAs h, fingerprint_of_sameAs h⟩

/-- Two hypotheses, one given and one derived, and the other way round. -/
theorem swapped_interchangeable :
    ∃ s t : Sequent, build .empty [.top] [.bottom] [.bottom] [.top] .top = .ok s ∧
      build .empty [.bottom] [.top] [.bottom] [.top] .top = .ok t ∧
      s.hypotheses = [.top, .bottom] ∧ t.hypotheses = [.bottom, .top] ∧
      s.sameAs t = true ∧ (∀ r : Rule, Rule.SameOutcome (r.expand s) (r.expand t)) ∧
      s.fingerprint = t.fingerprint := by
  let s : Sequent :=
    ⟨.empty, SortedBy.ofList [⟨.top, .given, .selected⟩, ⟨.bottom, .derived, .hidden⟩], .top⟩
  let t : Sequent :=
    ⟨.empty, SortedBy.ofList [⟨.top, .derived, .selected⟩, ⟨.bottom, .given, .hidden⟩], .top⟩
  have hs : build .empty [.top] [.bottom] [.bottom] [.top] .top = .ok s := rfl
  have ht : build .empty [.bottom] [.top] [.bottom] [.top] .top = .ok t := rfl
  have hsame : s.sameAs t = true := by decide +kernel
  exact ⟨s, t, hs, ht, by decide +kernel, by decide +kernel, hsame,
    same_sets_interchangeable.2.2 s t hsame⟩

end Sequent

end SequentProver
