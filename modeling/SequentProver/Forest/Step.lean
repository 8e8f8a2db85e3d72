import SequentProver.Forest.Edit
import SequentProver.Reasoner.Basic

/-! # Proof steps

    A step asks a reasoner for a rule and applies it.  The rule remembers
    the input, so that the step can be taken again. -/

namespace SequentProver

/-- Why a step failed: the reasoner declined, or the forest did. -/
inductive StepError where
  | reasoner (failure : ReasonerFailure)
  | tree (error : TreeError)
  deriving DecidableEq

/-- What came of a step, the forest after it, and the monitor. -/
structure Stepped where
  outcome : Except StepError Unit
  forest : Forest
  monitor : Monitor

namespace Forest

/-- Take a step at an open node: what the reasoner proposes is applied.
    Being canceled counts before the reasoner starts. -/
def applyReasoner (f : Forest) (node : NodeId) (reasoner : Reasoner) (input : Input)
    (monitor : Monitor) : Stepped :=
  match f.node? node with
  | none => ⟨.error (.tree (.unknownNode node)), f, monitor⟩
  | some proof =>
    if proof.isOpen then
      let (canceled, monitor) := monitor.poll
      if canceled then ⟨.error (.reasoner (.canceled reasoner.id)), f, monitor⟩
      else
        match reasoner.apply proof.sequent input monitor with
        | (.error failure, monitor) => ⟨.error (.reasoner failure), f, monitor⟩
        | (.ok rule, monitor) =>
          let (outcome, f) := f.applyRule node { rule with input := input }
          ⟨outcome.mapError .tree, f, monitor⟩
    else ⟨.error (.tree (.nodeNotOpen node)), f, monitor⟩

end Forest

end SequentProver
