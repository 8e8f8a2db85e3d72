import SequentProver.Proofs.Growth
import SequentProver.Reasoner.Builtin

/-! # The rules of the builtin reasoners

    What a builtin reasoner proposes has one of ten forms, whatever the
    sequent and the input.  A recorded rule meets other sequents later on,
    so the forms speak of the rule alone.  `Proposed` says more: when there
    is a proposal, and how the rule follows from the sequent and the input. -/

namespace SequentProver

namespace Rule

/-- The forms of the rules that builtin reasoners propose.  Only a review is
    below full confidence. -/
inductive Basic (r : Rule) : Prop where
  | hyp (g : Pred) (goal : r.goal = some g) (needed : g ∈ r.needed)
      (antecedents : r.antecedents = [])
  | trueGoal (goal : r.goal = some .top) (antecedents : r.antecedents = [])
  | falseHyp (needed : .bottom ∈ r.needed) (antecedents : r.antecedents = [])
  | review (confidence : r.confidence = .reviewedMax) (antecedents : r.antecedents = [])
  | impGoal (p q : Pred) (goal : r.goal = some (.binary .imp p q))
      (antecedents : r.antecedents = [{ goal := some q, hyps := SortedBy.ofList [p] }])
  | conjGoal (p q : Pred) (goal : r.goal = some (.binary .and p q))
      (antecedents : r.antecedents = [{ goal := some p }, { goal := some q }])
  | allGoal (ds : List TypedName) (body : Pred)
      (goal : r.goal = some (.quantified .universal ds body))
      (antecedents : r.antecedents = [{ goal := some body, idents := ds }])
  | cut (p : Pred)
      (antecedents : r.antecedents = [{ goal := some p }, { hyps := SortedBy.ofList [p] }])
  | conjHyp (p q : Pred) (gone : SortedSet Pred)
      (sources : gone = SortedBy.ofList [.binary .and p q]) (needed : r.needed = gone)
      (antecedents : r.antecedents
        = [{ actions := [.replace gone (SortedBy.ofList [p, q]) gone] }])
  | existsHyp (ds : List TypedName) (body : Pred) (source : SortedSet Pred)
      (sources : source = SortedBy.ofList [.quantified .existential ds body])
      (needed : r.needed = source)
      (antecedents : r.antecedents
        = [{ actions := [.infer source ds (SortedBy.ofList [body]), .mark .hide source] }])

end Rule

namespace Builtin

/-- The names to bind are the declarations. -/
theorem eq_of_boundIdents {b : Builtin} {ds ns : List TypedName}
    (h : b.boundIdents ds = .ok ns) : ns = ds := by
  induction ds generalizing ns with
  | nil =>
      cases h
      rfl
  | cons d ds ih =>
      rw [boundIdents, TypedName.make] at h
      -- a name is passed on as it is, or refused
      by_cases hvalid : isValidName d.name = true
      · rw [if_pos hvalid] at h
        cases hrest : b.boundIdents ds with
        | error e =>
            rw [hrest] at h
            exact nomatch h
        | ok rest =>
            rw [hrest] at h
            cases h
            rw [ih hrest]
      · rw [if_neg hvalid] at h
        exact nomatch h

/-- What is taken apart as an implication is one. -/
theorem asImplication_eq_some {g p q : Pred} (h : g.asImplication = some (p, q)) :
    g = .binary .imp p q := by
  unfold Pred.asImplication at h
  split at h
  · cases h
    rfl
  · exact nomatch h

/-- What is taken apart as a conjunction is one. -/
theorem asConjunction_eq_some {g p q : Pred} (h : g.asConjunction = some (p, q)) :
    g = .binary .and p q := by
  unfold Pred.asConjunction at h
  split at h
  · cases h
    rfl
  · exact nomatch h

/-- What the rule that a reasoner proposes has to do with the sequent and the
    input. -/
inductive Proposed (s : Sequent) (r : Rule) : Builtin → Input → Prop where
  | hyp (input : Input) (there : s.has s.goal = true) (goal : r.goal = some s.goal)
      (needed : r.needed = SortedBy.ofList [s.goal]) (antecedents : r.antecedents = []) :
      Proposed s r .hyp input
  | trueGoal (input : Input) (shape : s.goal = .top) (goal : r.goal = some .top)
      (needed : r.needed = ∅) (antecedents : r.antecedents = []) : Proposed s r .trueGoal input
  | falseHyp (input : Input) (there : s.has .bottom = true) (goal : r.goal = none)
      (needed : r.needed = SortedBy.ofList [.bottom]) (antecedents : r.antecedents = []) :
      Proposed s r .falseHyp input
  | review (input : Input) (confidence : r.confidence = .reviewedMax) (goal : r.goal = some s.goal)
      (needed : r.needed = SortedBy.ofList (s.ofStanding .selected))
      (antecedents : r.antecedents = []) : Proposed s r .review input
  | impGoal (input : Input) (p q : Pred) (shape : s.goal = .binary .imp p q)
      (goal : r.goal = some s.goal) (needed : r.needed = ∅)
      (antecedents : r.antecedents = [{ goal := some q, hyps := SortedBy.ofList [p] }]) :
      Proposed s r .impGoal input
  | conjGoal (input : Input) (p q : Pred) (shape : s.goal = .binary .and p q)
      (goal : r.goal = some s.goal) (needed : r.needed = ∅)
      (antecedents : r.antecedents = [{ goal := some p }, { goal := some q }]) :
      Proposed s r .conjGoal input
  | allGoal (input : Input) (ds : List TypedName) (body : Pred)
      (shape : s.goal = .quantified .universal ds body) (goal : r.goal = some s.goal)
      (needed : r.needed = ∅)
      (antecedents : r.antecedents = [{ goal := some body, idents := ds }]) :
      Proposed s r .allGoal input
  | cut (p : Pred) (accepted : s.env.accepts p = true) (goal : r.goal = none)
      (needed : r.needed = ∅)
      (antecedents : r.antecedents = [{ goal := some p }, { hyps := SortedBy.ofList [p] }]) :
      Proposed s r .cut (.predicate p)
  | conjHyp (p q : Pred) (gone : SortedSet Pred)
      (sources : gone = SortedBy.ofList [.binary .and p q])
      (there : s.has (.binary .and p q) = true) (goal : r.goal = none) (needed : r.needed = gone)
      (antecedents : r.antecedents
        = [{ actions := [.replace gone (SortedBy.ofList [p, q]) gone] }]) :
      Proposed s r .conjHyp (.predicate (.binary .and p q))
  | existsHyp (ds : List TypedName) (body : Pred) (source : SortedSet Pred)
      (sources : source = SortedBy.ofList [.quantified .existential ds body])
      (there : s.has (.quantified .existential ds body) = true)
      (fresh : ∀ d ∈ ds, s.env.binds d.name = false) (goal : r.goal = none)
      (needed : r.needed = source)
      (antecedents : r.antecedents
        = [{ actions := [.infer source ds (SortedBy.ofList [body]), .mark .hide source] }]) :
      Proposed s r .existsHyp (.predicate (.quantified .existential ds body))

/-- An input that is taken for a predicate is one. -/
theorem predicateInput_eq_ok {b : Builtin} {input : Input} {p : Pred}
    (h : b.predicateInput input = .ok p) : input = .predicate p := by
  cases input with
  | predicate q =>
      cases h
      rfl
  | empty | predicates | comment => cases h

/-- An input that is taken for a hypothesis is one of the sequent. -/
theorem hypothesisInput_eq_ok {b : Builtin} {s : Sequent} {input : Input} {p : Pred}
    (h : b.hypothesisInput s input = .ok p) : input = .predicate p ∧ s.has p = true := by
  obtain ⟨q, hq, h⟩ := bind_eq_ok_iff.mp h
  split at h
  · rename_i hhas
    cases h
    exact ⟨predicateInput_eq_ok hq, hhas⟩
  · cases h

/-! ## One reasoner after the other -/

section Proposed

variable {s : Sequent} {input : Input} {r : Rule}

/-- The goal is one of the hypotheses, and the rule asks for it there. -/
theorem proposed_of_proposeHyp (h : proposeHyp s = .ok r) : hyp.Proposed s r input := by
  rw [proposeHyp] at h
  split at h
  · rename_i hhas
    cases h
    exact .hyp input hhas rfl rfl rfl
  · cases h

/-- A goal `⊤` needs nothing. -/
theorem proposed_of_proposeTrueGoal (h : proposeTrueGoal s = .ok r) :
    trueGoal.Proposed s r input := by
  rw [proposeTrueGoal] at h
  split at h
  · rename_i htop
    cases h
    exact .trueGoal input htop rfl rfl rfl
  · cases h

/-- A hypothesis `⊥` is enough for any goal. -/
theorem proposed_of_proposeFalseHyp (h : proposeFalseHyp s = .ok r) :
    falseHyp.Proposed s r input := by
  rw [proposeFalseHyp] at h
  split at h
  · rename_i hhas
    cases h
    exact .falseHyp input hhas rfl rfl rfl
  · cases h

/-- A review asks for nothing but an input that it can show. -/
theorem proposed_of_proposeReview (h : proposeReview s input = .ok r) :
    review.Proposed s r input := by
  simp only [proposeReview] at h
  split at h
  all_goals
    obtain ⟨display, -, h⟩ := bind_eq_ok_iff.mp h
    cases h
    exact .review _ rfl rfl rfl rfl

/-- The left side of an implication goes to the hypotheses. -/
theorem proposed_of_proposeImpGoal (h : proposeImpGoal s = .ok r) : impGoal.Proposed s r input := by
  rw [proposeImpGoal] at h
  cases hgoal : s.goal.asImplication with
  | none =>
      rw [hgoal] at h
      cases h
  | some sides =>
      obtain ⟨p, q⟩ := sides
      rw [hgoal] at h
      cases h
      exact .impGoal input p q (asImplication_eq_some hgoal) rfl rfl rfl

/-- Both sides of a conjunction are left to prove. -/
theorem proposed_of_proposeConjGoal (h : proposeConjGoal s = .ok r) :
    conjGoal.Proposed s r input := by
  rw [proposeConjGoal] at h
  cases hgoal : s.goal.asConjunction with
  | none =>
      rw [hgoal] at h
      cases h
  | some sides =>
      obtain ⟨p, q⟩ := sides
      rw [hgoal] at h
      cases h
      exact .conjGoal input p q (asConjunction_eq_some hgoal) rfl rfl rfl

/-- The bound names come back as the names of the only child. -/
theorem proposed_of_proposeAllGoal (h : proposeAllGoal s = .ok r) : allGoal.Proposed s r input := by
  rw [proposeAllGoal] at h
  split at h
  · rename_i ds body hgoal
    obtain ⟨ns, hns, h⟩ := bind_eq_ok_iff.mp h
    cases eq_of_boundIdents hns
    cases h
    exact .allGoal input ds body hgoal rfl rfl rfl
  · cases h

/-- What is cut in is checked against the names of the sequent. -/
theorem proposed_of_proposeCut (h : proposeCut s input = .ok r) : cut.Proposed s r input := by
  rw [proposeCut] at h
  obtain ⟨p, hp, hrule⟩ := bind_eq_ok_iff.mp h
  cases predicateInput_eq_ok hp
  split at hrule
  · cases hrule
  · rename_i hcheck
    cases hrule
    exact .cut p (TypeEnv.accepts_iff.mpr hcheck) rfl rfl rfl

/-- A conjunction among the hypotheses is replaced by its sides. -/
theorem proposed_of_proposeConjHyp (h : proposeConjHyp s input = .ok r) :
    conjHyp.Proposed s r input := by
  rw [proposeConjHyp] at h
  obtain ⟨g, hg, hrule⟩ := bind_eq_ok_iff.mp h
  obtain ⟨rfl, hhas⟩ := hypothesisInput_eq_ok hg
  cases hsides : g.asConjunction with
  | none =>
      rw [hsides] at hrule
      cases hrule
  | some sides =>
      obtain ⟨p, q⟩ := sides
      rw [hsides] at hrule
      cases asConjunction_eq_some hsides
      cases hrule
      exact .conjHyp p q _ rfl hhas rfl rfl rfl

/-- The bound names are new to the sequent, or there is no proposal. -/
theorem proposed_of_proposeExistsHyp (h : proposeExistsHyp s input = .ok r) :
    existsHyp.Proposed s r input := by
  rw [proposeExistsHyp] at h
  obtain ⟨g, hg, hrule⟩ := bind_eq_ok_iff.mp h
  obtain ⟨rfl, hhas⟩ := hypothesisInput_eq_ok hg
  split at hrule
  · rename_i ds body
    split at hrule
    · cases hrule
    · rename_i hfresh
      obtain ⟨ns, hns, hrule⟩ := bind_eq_ok_iff.mp hrule
      cases eq_of_boundIdents hns
      cases hrule
      refine .existsHyp ds body _ rfl hhas ?_ rfl rfl rfl
      intro d hd
      exact Bool.eq_false_iff.mpr (List.find?_eq_none.mp hfresh d hd)
  · cases hrule

end Proposed

/-- One look at each reasoner: when it proposes a rule, and which. -/
theorem proposed_of_propose {b : Builtin} {s : Sequent} {input : Input} {r : Rule}
    (h : b.propose s input = .ok r) : b.Proposed s r input := by
  cases b with
  | hyp => exact proposed_of_proposeHyp h
  | trueGoal => exact proposed_of_proposeTrueGoal h
  | falseHyp => exact proposed_of_proposeFalseHyp h
  | review => exact proposed_of_proposeReview h
  | impGoal => exact proposed_of_proposeImpGoal h
  | conjGoal => exact proposed_of_proposeConjGoal h
  | allGoal => exact proposed_of_proposeAllGoal h
  | cut => exact proposed_of_proposeCut h
  | conjHyp => exact proposed_of_proposeConjHyp h
  | existsHyp => exact proposed_of_proposeExistsHyp h

/-- Whatever input is noted on it, a proposed rule has one of the forms. -/
theorem basic_of_propose {b : Builtin} {s : Sequent} {input : Input} {r : Rule}
    (h : b.propose s input = .ok r) (noted : Input) : Rule.Basic { r with input := noted } := by
  -- the rule keeps its shape; only the input it was asked with is noted
  cases proposed_of_propose h with
  | hyp _ there goal needed antecedents =>
      refine .hyp s.goal goal ?_ antecedents
      rw [needed, SortedSet.mem_ofList]
      exact List.mem_cons_self
  | trueGoal _ shape goal needed antecedents => exact .trueGoal goal antecedents
  | falseHyp _ there goal needed antecedents =>
      refine .falseHyp ?_ antecedents
      rw [needed, SortedSet.mem_ofList]
      exact List.mem_cons_self
  | review _ confidence goal needed antecedents => exact .review confidence antecedents
  | impGoal _ p q shape goal needed antecedents =>
      exact .impGoal p q (goal.trans (congrArg some shape)) antecedents
  | conjGoal _ p q shape goal needed antecedents =>
      exact .conjGoal p q (goal.trans (congrArg some shape)) antecedents
  | allGoal _ ds body shape goal needed antecedents =>
      exact .allGoal ds body (goal.trans (congrArg some shape)) antecedents
  | cut p accepted goal needed antecedents => exact .cut p antecedents
  | conjHyp p q gone sources there goal needed antecedents =>
      exact .conjHyp p q gone sources needed antecedents
  | existsHyp ds body source sources there fresh goal needed antecedents =>
      exact .existsHyp ds body source sources needed antecedents

end Builtin

end SequentProver
