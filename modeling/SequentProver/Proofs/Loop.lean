/-! # Loops

    A loop repeats a turn on its state until a turn comes to a result.  A turn
    without a value is a fault.  A loop that meets a fault, or that never ends,
    runs to no result. -/

namespace SequentProver

/-- From the state, the loop ends with the result.  A turn says on the left
    from which state to go on, and on the right that the loop is over. -/
inductive RunsTo {σ ρ : Type} (turn : σ → Option (σ ⊕ ρ)) : σ → ρ → Prop
  | done {state : σ} {result : ρ} (h : turn state = some (.inr result)) : RunsTo turn state result
  | again {state next : σ} {result : ρ} (h : turn state = some (.inl next))
      (hrun : RunsTo turn next result) : RunsTo turn state result

end SequentProver
