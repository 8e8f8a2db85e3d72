import SequentProver.Rule.Basic

/-! # Reasoners

    From a sequent and an input a reasoner proposes a rule, or says why it
    has none.  It may ask a monitor whether it was canceled.  Reasoners are
    kept in registries under their names. -/

namespace SequentProver

/-! ## Monitors -/

/-- `canceled n` is the answer to the poll after `n` others; `polls` counts
    the polls so far. -/
structure Monitor where
  canceled : Nat → Bool
  polls : Nat := 0

namespace Monitor

/-- Never canceled. -/
def never : Monitor := { canceled := fun _ => false }

/-- Canceled from the start. -/
def tripped : Monitor := { canceled := fun _ => true }

/-- Not canceled for the first `n` polls, canceled afterwards. -/
def after (n : Nat) : Monitor := { canceled := fun k => decide (n ≤ k) }

/-- Ask once. -/
def poll (m : Monitor) : Bool × Monitor := (m.canceled m.polls, { m with polls := m.polls + 1 })

end Monitor

/-! ## Reasoners -/

/-- Why a reasoner proposed no rule. -/
inductive ReasonerFailure where
  /-- It does not apply to the sequent. -/
  | unsuccessful (reasoner message : String)
  /-- The input is of the wrong kind for this reasoner. -/
  | malformedInput (reasoner message : String)
  | canceled (reasoner : String)
  /-- It proposed a rule with a level no rule may have. -/
  | invalidConfidence (level : Confidence)
  deriving DecidableEq

namespace ReasonerFailure

/-- What is said to the user. -/
def message : ReasonerFailure → String
  | .unsuccessful reasoner text => reasoner ++ ": " ++ text
  | .malformedInput reasoner text => reasoner ++ ": malformed input: " ++ text
  | .canceled reasoner => reasoner ++ ": canceled"
  | .invalidConfidence level => Rule.invalidConfidence level

end ReasonerFailure

/-- A reasoner looks at a sequent and an input and proposes a rule; the monitor
    may stop it on the way. -/
structure Reasoner where
  id : String
  apply : Sequent → Input → Monitor → Except ReasonerFailure Rule × Monitor

namespace Reasoner

/-- A reasoner that never polls its monitor. -/
def unmonitored (id : String) (propose : Sequent → Input → Except ReasonerFailure Rule) :
    Reasoner :=
  { id := id, apply := fun s input monitor => (propose s input, monitor) }

/-- A reasoner that answers the same whatever it is asked. -/
def constant (id : String) (answer : Except ReasonerFailure Rule) : Reasoner :=
  unmonitored id fun _ _ => answer

end Reasoner

/-! ## Registries -/

/-- Reasoners in the order of their names. -/
structure Registry where
  reasoners : SortedBy Reasoner.id

namespace Registry

/-- No reasoners. -/
def empty : Registry := ⟨∅⟩

/-- The reasoner of that name. -/
def find? (r : Registry) (id : String) : Option Reasoner := r.reasoners.find? id

/-- Whether there is a reasoner of that name. -/
def contains (r : Registry) (id : String) : Bool := r.reasoners.hasKey id

/-- The names, in order. -/
def ids (r : Registry) : List String := r.reasoners.toList.map Reasoner.id

/-- Number of reasoners. -/
def size (r : Registry) : Nat := r.reasoners.size

/-- Whether there are none. -/
def isEmpty (r : Registry) : Bool := r.reasoners.isEmpty

/-- Add a reasoner; one of the same name is replaced. -/
def insert (r : Registry) (reasoner : Reasoner) : Registry := ⟨r.reasoners.insert reasoner⟩

/-- Add a reasoner under a name that is not taken yet; a taken name is
    handed back as the error. -/
def register (r : Registry) (reasoner : Reasoner) : Except String Registry :=
  if r.contains reasoner.id then .error reasoner.id else .ok (r.insert reasoner)

/-- The message about a name that is taken. -/
def duplicateMessage (id : String) : String := "duplicate reasoner id: " ++ id

/-- The names, quoted, as a set. -/
def outline (r : Registry) : String :=
  "\x7b" ++ Text.joined ", " (r.ids.map Text.quoted) ++ "\x7d"

end Registry

end SequentProver
