import SequentProver.Proofs.Visibility

/-! # Actions done twice

    An action that has been done leaves nothing to do for a second one of the
    same kind.  A mark brings every hypothesis it mentions into a standing
    that the mark keeps.  An inference that took effect finds its predicates
    among the hypotheses, whatever its sources and names have become.  A
    replacement takes its other branch the second time: what it adds is there,
    and it only selects and hides once more, over sets that may overlap. -/

namespace SequentProver

open MarkCall (settle settle_cons settle_nil)

/-- Marking twice is marking once, for one hypothesis. -/
theorem Mark.apply_apply (m : Mark) (standing : Standing) :
    m.apply (m.apply standing) = m.apply standing := by
  cases m <;> cases standing <;> rfl

namespace Sequent

variable {s t : Sequent}

/-! ## Marks -/

/-- The same calls once more change nothing if they settle nothing anew. -/
theorem markAll_markAll {calls : List MarkCall}
    (h : ∀ p standing, settle calls p (settle calls p standing) = settle calls p standing) :
    (s.markAll calls).markAll calls = s.markAll calls := by
  rw [← markAll_append]
  refine markAll_congr ?_
  intro x _
  rw [MarkCall.settle_append, h]

theorem mark_mark (s : Sequent) (m : Mark) (ps : List Pred) :
    (s.mark m ps).mark m ps = s.mark m ps := by
  have hcall : ∀ p standing,
      settle [⟨m, ps⟩] p (settle [⟨m, ps⟩] p standing) = settle [⟨m, ps⟩] p standing := by
    intro p standing
    by_cases hp : p ∈ ps
    · simp only [settle_cons, settle_nil, if_pos hp, Mark.apply_apply]
    · simp only [settle_cons, settle_nil, if_neg hp]
  exact markAll_markAll hcall

/-- Marking does not touch which hypotheses there are. -/
theorem hasAll_markAll (s : Sequent) (calls : List MarkCall) (ps : List Pred) :
    (s.markAll calls).hasAll ps = s.hasAll ps := by
  rw [hasAll, hasAll, funext (s.has_markAll calls)]

/-! ## Inferences -/

/-- What is inferred is there afterwards. -/
theorem hasAll_of_forwardInfer {sources inferred : List Pred} {idents : List TypedName}
    (h : s.forwardInfer sources idents inferred = some t) : t.hasAll inferred = true := by
  obtain ⟨hgrows, -⟩ := grows_forwardInfer h
  exact hasAll_iff.mpr fun p hp => (hgrows.has p).mpr (Or.inr hp)

theorem hasAll_of_tryInfer {sources inferred : SortedSet Pred} {idents : List TypedName}
    (h : s.tryInfer sources idents inferred = some t) : t.hasAll inferred.toList = true := by
  rw [tryInfer] at h
  split at h
  · exact hasAll_of_forwardInfer h
  · cases h

/-- Nothing is inferred when there is nothing new. -/
theorem tryInfer_eq_none {sources inferred : SortedSet Pred} {idents : List TypedName}
    (h : s.hasAll inferred.toList = true) : s.tryInfer sources idents inferred = none := by
  rw [tryInfer, h, Bool.not_true, Bool.and_false]
  rfl

/-! ## Replacements -/

section Replace

variable {sources replacement toHide : SortedSet Pred}

/-- The calls a replacement ends with. -/
def replaceCalls (sources replacement toHide : SortedSet Pred) : List MarkCall :=
  [⟨.select, replacement.toList⟩, ⟨.hide, (SortedSet.inter toHide sources).toList⟩]

/-- What is hidden in the end is hidden, what else is selected is selected. -/
theorem settle_replaceCalls (p : Pred) (standing : Standing) :
    settle (replaceCalls sources replacement toHide) p standing =
      if p ∈ SortedSet.inter toHide sources then .hidden
      else if p ∈ replacement then .selected else standing := by
  rw [replaceCalls, settle_cons, settle_cons, settle_nil]
  rfl

/-- A replacement leaves the sequent alone, or it ends with its calls on a
    sequent that has its sources and what replaces them. -/
theorem performReplace_cases (s : Sequent) (sources replacement toHide : SortedSet Pred) :
    s.performReplace sources replacement toHide = ⟨s, true⟩ ∨
      ∃ (t : Sequent) (skipped : Bool), s.performReplace sources replacement toHide =
          ⟨t.markAll (replaceCalls sources replacement toHide), skipped⟩ ∧
        t.hasAll sources.toList = true ∧ t.hasAll replacement.toList = true := by
  rw [performReplace]
  by_cases hsources : s.hasAll sources.toList = true
  · by_cases hthere : s.hasAll replacement.toList = true
    · simp only [hsources, hthere, Bool.not_true, Bool.false_eq_true, if_false, if_true]
      exact Or.inr ⟨s, true, rfl, hsources, hthere⟩
    · simp only [hsources, hthere, Bool.not_true, Bool.false_eq_true, if_false]
      cases hinfer : s.forwardInfer sources.toList [] replacement.toList with
      | none => exact Or.inl rfl
      | some t =>
          -- an inference keeps the sources
          obtain ⟨hgrows, -⟩ := grows_forwardInfer hinfer
          have hkept : t.hasAll sources.toList = true :=
            hasAll_iff.mpr fun p hp => (hgrows.has p).mpr (Or.inl (hasAll_iff.mp hsources p hp))
          exact Or.inr ⟨t, false, rfl, hkept, hasAll_of_forwardInfer hinfer⟩
  · simp only [hsources, Bool.not_false, if_true]
    exact Or.inl trivial

/-- With sources and replacement there, only the calls are left. -/
theorem performReplace_of_hasAll (hsources : s.hasAll sources.toList = true)
    (hthere : s.hasAll replacement.toList = true) :
    s.performReplace sources replacement toHide =
      ⟨s.markAll (replaceCalls sources replacement toHide), true⟩ := by
  rw [performReplace]
  simp only [hsources, hthere, Bool.not_true, Bool.false_eq_true, if_false, if_true]
  rfl

/-- A second replacement finds everything in place and is skipped. -/
theorem performReplace_twice (s : Sequent) (sources replacement toHide : SortedSet Pred) :
    (s.performReplace sources replacement toHide).sequent.performReplace
        sources replacement toHide =
      ⟨(s.performReplace sources replacement toHide).sequent, true⟩ := by
  rcases s.performReplace_cases sources replacement toHide with
    hsame | ⟨t, skipped, hdone, hsources, hthere⟩
  · rw [hsame, hsame]
  · have hcalls : (t.markAll (replaceCalls sources replacement toHide)).markAll
        (replaceCalls sources replacement toHide) =
          t.markAll (replaceCalls sources replacement toHide) := by
      refine markAll_markAll ?_
      intro p standing
      rw [settle_replaceCalls, settle_replaceCalls]
      split_ifs <;> rfl
    rw [hdone, performReplace_of_hasAll, hcalls]
    · rw [hasAll_markAll, hsources]
    · rw [hasAll_markAll, hthere]

end Replace

end Sequent

namespace Action

/-- The second time, an action gives back its sequent, and an inference or a
    replacement is skipped. -/
theorem execute_twice (a : Action) (s : Sequent) :
    a.execute (a.perform s) = ⟨a.perform s, a.added?.isSome⟩ := by
  cases a with
  | mark m hyps =>
      show (⟨(s.mark m hyps.toList).mark m hyps.toList, false⟩ : Performed) = _
      rw [Sequent.mark_mark]
      rfl
  | infer sources idents inferred =>
      rw [perform, execute, execute]
      cases htry : s.tryInfer sources idents inferred with
      | none =>
          simp only [htry]
          rfl
      | some t =>
          simp only [Sequent.tryInfer_eq_none (Sequent.hasAll_of_tryInfer htry)]
          rfl
  | replace sources replacement toHide => exact s.performReplace_twice sources replacement toHide

/-- Actions are idempotent, of whatever kind and over whatever sets: performed
    once more, an action changes nothing, and if it is an inference or a
    replacement it counts as skipped. -/
theorem perform_idempotent (a : Action) (s : Sequent) :
    a.perform (a.perform s) = a.perform s ∧
      (a.perform (a.perform s)).sameAs (a.perform s) = true ∧
      (a.execute (a.perform s)).skipped = a.added?.isSome := by
  have htwice := a.execute_twice s
  have hperform : a.perform (a.perform s) = a.perform s := by
    show (a.execute (a.perform s)).sequent = a.perform s
    rw [htwice]
  rw [hperform, htwice]
  exact ⟨rfl, Sequent.sameAs_refl _, rfl⟩

/-- A hidden source replaces itself and brings in another predicate, which is
    to be hidden, too, but is no source. -/
example :
    let s : Sequent := ⟨.empty, SortedBy.ofList [⟨.top, .given, .hidden⟩], .top⟩
    let a : Action := .replace (SortedBy.ofList [.top]) (SortedBy.ofList [.top, .bottom])
      (SortedBy.ofList [.top, .bottom])
    (a.execute s).skipped = false ∧ (a.execute (a.perform s)).skipped = true ∧
      (a.perform s).ofStanding .hidden = [.top] ∧
      (a.perform s).ofStanding .selected = [.bottom] := by
  decide +kernel

end Action

end SequentProver
