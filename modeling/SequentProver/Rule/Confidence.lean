import SequentProver.Text.Decimal

/-! # Confidence

    How far a proof can be trusted, as a level.  Above zero a proof is
    closed; up to five hundred it rests on a human's word, above that on
    the kernel. -/

namespace SequentProver

/-- A level of confidence, a signed 32-bit word. -/
structure Confidence where
  level : Int32
  deriving DecidableEq, Inhabited

namespace Confidence

/-- The level as an integer. -/
def value (c : Confidence) : Int := c.level.toInt

/-- Nothing has been tried. -/
def unattempted : Confidence := ⟨-99⟩

/-- Something is noted, but nothing is proved. -/
def pending : Confidence := ⟨0⟩

/-- The highest level of a proof that was only reviewed. -/
def reviewedMax : Confidence := ⟨500⟩

/-- The highest level of a discharged proof. -/
def dischargedMax : Confidence := ⟨1000⟩

/-- Whether nothing is left to do. -/
def isClosed (c : Confidence) : Bool := pending.value < c.value

/-- Whether the proof was accepted by review only. -/
def isReviewed (c : Confidence) : Bool := c.isClosed && c.value ≤ reviewedMax.value

/-- Whether the proof is complete. -/
def isDischarged (c : Confidence) : Bool := reviewedMax.value < c.value

/-- The levels a rule may have. -/
def isValidForRule (c : Confidence) : Bool := c.isClosed && c.value ≤ dischargedMax.value

/-- The lower of two levels. -/
def min (c d : Confidence) : Confidence := if c.value ≤ d.value then c else d

/-- The higher of two levels. -/
def max (c d : Confidence) : Confidence := if c.value ≤ d.value then d else c

/-- The level as it is printed, with its number where that says more. -/
def text (c : Confidence) : String :=
  let number := Text.decimal c.value
  if c = unattempted then "unattempted"
  else if c = pending then "pending"
  else if c.isReviewed then "reviewed(" ++ number ++ ")"
  else if c.isDischarged then "discharged(" ++ number ++ ")"
  else number

end Confidence

end SequentProver
