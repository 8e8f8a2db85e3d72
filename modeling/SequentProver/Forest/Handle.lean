import SequentProver.Text.Decimal

/-! # Handles

    Nodes and trees are known by handles, written as a letter with numbers
    behind it. -/

namespace SequentProver

/-- A node's slot and the slot's generation.  A slot that is used again
    has a new generation, so an old handle never reaches a new node. -/
structure NodeId where
  index : Nat
  generation : Nat
  deriving DecidableEq, Inhabited

/-- Handle of a tree: trees are numbered as they are made. -/
structure TreeId where
  number : Nat
  deriving DecidableEq, Inhabited

namespace NodeId

/-- The generation is written when it is not the first. -/
def text (id : NodeId) : String :=
  let index := "n" ++ Text.decimal id.index
  if id.generation = 0 then index else index ++ "." ++ Text.decimal id.generation

end NodeId

namespace TreeId

/-- The number behind a `t`. -/
def text (id : TreeId) : String := "t" ++ Text.decimal id.number

end TreeId

/-! ## Reading -/

/-- A number of at most thirty-two bits, in digits; a plus sign may stand
    in front. -/
def wordOfText? (cs : List Char) : Option Nat :=
  let ds := match cs with
    | '+' :: rest => rest
    | _ => cs
  if ds ≠ [] ∧ ds.all Text.isDigit ∧ Text.digitsValue ds < 4294967296 then
    some (Text.digitsValue ds)
  else none

/-- A handle without a generation has the first one. -/
def NodeId.ofText? (s : String) : Option NodeId :=
  match s.toList with
  | 'n' :: rest => do
    let index ← wordOfText? (rest.takeWhile fun c => c ≠ '.')
    match rest.dropWhile fun c => c ≠ '.' with
    | [] => return ⟨index, 0⟩
    | _ :: generation => return ⟨index, ← wordOfText? generation⟩
  | _ => none

/-- The handle that is written as the text. -/
def TreeId.ofText? (s : String) : Option TreeId :=
  match s.toList with
  | 't' :: rest => (wordOfText? rest).map TreeId.mk
  | _ => none

end SequentProver
