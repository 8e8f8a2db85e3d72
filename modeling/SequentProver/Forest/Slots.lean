import SequentProver.Forest.ProofTree

/-! # Slots

    Nodes live in numbered slots.  A slot given back is used again before a
    new one is opened, the latest first, and under its next generation.

    Slots and generations are counted by natural numbers.  The limits of
    32-bit handles are left out: there is always room for one more slot, and
    no slot is withdrawn because its generation was the last one.  What is
    said about slots holds as long as no count reaches those limits. -/

namespace SequentProver

/-- The slots that there are, in use or not. -/
structure Slots where
  /-- The generation of each slot. -/
  generations : List Nat := []
  /-- The slots given back, the next one to use first. -/
  free : List Nat := []
  deriving DecidableEq, Inhabited

namespace Slots

/-- Number of slots in use. -/
def inUse (s : Slots) : Nat := s.generations.length - s.free.length

/-- The handle for a slot as it stands. -/
def handle (s : Slots) (index : Nat) : NodeId := ⟨index, s.generations.getD index 0⟩

/-- A handle for a new node. -/
def alloc (s : Slots) : NodeId × Slots :=
  match s.free with
  | index :: rest => (s.handle index, { s with free := rest })
  | [] => (⟨s.generations.length, 0⟩, { s with generations := s.generations ++ [0] })

/-- Give a slot back. -/
def release (s : Slots) (id : NodeId) : Slots :=
  ⟨s.generations.modify id.index (· + 1), id.index :: s.free⟩

/-- Give slots back, so that the first of the list is used next. -/
def releaseAll (s : Slots) (ids : List NodeId) : Slots :=
  ids.foldr (fun id acc => acc.release id) s

/-- Open nodes on the given sequents. -/
def openNodes (s : Slots) : List Sequent → List ProofTree × Slots
  | [] => ([], s)
  | sequent :: rest =>
    let (id, s) := s.alloc
    let (more, s) := s.openNodes rest
    (.openNode { id := id, sequent := sequent } :: more, s)

mutual

/-- A copy of a tree under new handles, given out parents first. -/
def copy (s : Slots) : ProofTree → ProofTree × Slots
  | .openNode node =>
    let (id, s) := s.alloc
    (.openNode { node with id := id }, s)
  | .applied node rule skipped children =>
    let (id, s) := s.alloc
    let (children, s) := copyAmong s children
    (.applied { node with id := id } rule skipped children, s)

/-- Copies of siblings, with handles given out from left to right. -/
def copyAmong (s : Slots) : List ProofTree → List ProofTree × Slots
  | [] => ([], s)
  | t :: rest =>
    let (t, s) := copy s t
    let (rest, s) := copyAmong s rest
    (t :: rest, s)

end

end Slots

end SequentProver
