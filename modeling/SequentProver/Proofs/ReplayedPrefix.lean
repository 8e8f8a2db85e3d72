import SequentProver.Proofs.Links
import SequentProver.Proofs.Regrowth

/-! # What a replay leaves behind

    A replay goes down a skeleton as long as the recorded rules apply.
    `Replayed` says what the forest has at a node afterwards: by recursion on
    the skeleton, without slots and without the order of events.  A skeleton
    may have any shape; where it lists more or fewer children than the rule
    gives, what has no partner is left as it is.

    Route:
    1. `Replayed`, what is asked of a replay at an open node;
    2. a node with the subtree that a skeleton grows has it;
    3. a replay in a reachable forest puts that subtree in place. -/

namespace SequentProver.Forest

open ProofTree (regrow regrowAmong)

variable {allowed : Rule → Prop} {f g : Forest} {n : NodeId} {p : ProofTree}

/-! ## The state after a replay -/

/-- The node is open, without a comment, on the given sequent. -/
def Untouched (g : Forest) (s : Sequent) (n : NodeId) : Prop :=
  ∃ p, g.node? n = some p ∧ p.sequent = s ∧ p.comment = "" ∧ p.isOpen = true ∧ p.children = []

mutual

/-- The forest has at the handle of `before` what a replay of the skeleton
    makes of an open node: the comment is the recorded one unless that is
    empty, and the recorded rule is applied if it applies. -/
def Replayed (g : Forest) : Skeleton → Node → Prop
  | .mk comment rule children, before =>
    ∃ after, g.node? before.id = some after ∧ after.sequent = before.sequent ∧
      after.comment = (if comment = "" then before.comment else comment) ∧
      match rule with
      | none => after.isOpen = true ∧ after.children = []
      | some rule =>
        match rule.expand before.sequent with
        | none => after.isOpen = true ∧ after.children = []
        | some (sequents, skipped) =>
          after.rule? = some rule ∧ after.skipped = skipped ∧
            g.ReplayedAmong children sequents (after.children.map ProofTree.id)

/-- The same for new nodes on the given sequents, one by one; those without a
    skeleton are untouched. -/
def ReplayedAmong (g : Forest) : List Skeleton → List Sequent → List NodeId → Prop
  | s :: more, kid :: kids, n :: ns =>
    g.Replayed s { id := n, sequent := kid } ∧ g.ReplayedAmong more kids ns
  | _, kids, ns => List.Forall₂ g.Untouched kids ns

end

/-! ## What a skeleton grows -/

/-- Without skeletons all siblings are untouched. -/
theorem replayedAmong_nil (kids : List Sequent) (ns : List NodeId) :
    g.ReplayedAmong [] kids ns ↔ List.Forall₂ g.Untouched kids ns := by
  cases kids <;> exact Iff.rfl

/-- New nodes are untouched. -/
theorem untouched_openNodes (slots : Slots) (kids : List Sequent)
    (hnodes : ∀ c ∈ (slots.openNodes kids).1, g.node? c.id = some c) :
    List.Forall₂ g.Untouched kids ((slots.openNodes kids).1.map ProofTree.id) := by
  induction kids generalizing slots with
  | nil => exact .nil
  | cons kid kids ih =>
      obtain ⟨hfirst, hrest⟩ := List.forall_mem_cons.mp hnodes
      exact .cons ⟨_, hfirst, rfl, rfl, rfl, rfl⟩ (ih _ hrest)

/-- The children grow one by one, each out of a new node. -/
theorem replayedAmong_regrowAmong {skeletons : List Skeleton}
    (ih : ∀ s ∈ skeletons, ∀ (slots : Slots) (node : Node),
      g.node? node.id = some (regrow slots node s).1 → g.Replayed s node)
    (slots slots' : Slots) (kids : List Sequent)
    (hnodes : ∀ c ∈ (regrowAmong slots' (slots.openNodes kids).1 skeletons).1,
      g.node? c.id = some c) :
    g.ReplayedAmong skeletons kids
      ((regrowAmong slots' (slots.openNodes kids).1 skeletons).1.map ProofTree.id) := by
  induction skeletons generalizing slots slots' kids with
  | nil =>
      -- nodes without a part of the proof stay as they were opened
      rw [ProofTree.regrowAmong_nil] at hnodes ⊢
      exact (replayedAmong_nil _ _).mpr (untouched_openNodes slots kids hnodes)
  | cons s more ihmore =>
      cases kids with
      | nil => exact .nil
      | cons kid kids =>
          obtain ⟨hfirst, hrest⟩ := List.forall_mem_cons.mp hnodes
          rw [ProofTree.id_regrow] at hfirst
          refine ⟨?_, ihmore (fun s hs => ih s (List.mem_cons_of_mem _ hs)) _ _ kids hrest⟩
          rw [ProofTree.id_regrow]
          exact ih s List.mem_cons_self _ _ hfirst

/-- A node with the subtree that the skeleton grows is as after a replay. -/
theorem replayed_of_regrow (h : (g.bench []).Wf allowed) (s : Skeleton) (slots : Slots)
    (node : Node) (hnode : g.node? node.id = some (regrow slots node s).1) :
    g.Replayed s node := by
  -- on the stored proof, along the same cases as regrowing
  induction s generalizing slots node with
  | mk comment rule? children ih =>
      have hcomment := node.comment_restored comment
      have hsequent := node.sequent_restored comment
      cases rule? with
      | none =>
          rw [ProofTree.regrow_none] at hnode
          exact ⟨_, hnode, hsequent, hcomment, rfl, rfl⟩
      | some rule =>
          cases hexpand : rule.expand node.sequent with
          -- here the replay ends: the rule does not apply, and the node stays open
          | none =>
              rw [ProofTree.regrow_refused hexpand] at hnode
              refine ⟨_, hnode, hsequent, hcomment, ?_⟩
              dsimp only
              rw [hexpand]
              exact ⟨rfl, rfl⟩
          | some expanded =>
              obtain ⟨sequents, skipped⟩ := expanded
              rw [ProofTree.regrow_applied hexpand] at hnode
              refine ⟨_, hnode, hsequent, hcomment, ?_⟩
              dsimp only
              rw [hexpand]
              refine ⟨rfl, rfl, replayedAmong_regrowAmong ih _ _ sequents fun c hc => ?_⟩
              exact node?_child h hnode hc

/-! ## Replays in a forest -/

/-- **Replaying a skeleton at an open node succeeds, applies recorded rules as
    far down as they apply, and answers whether the node is closed then.** -/
theorem reuse_replays_prefix (hf : f.Reachable) (hnode : f.node? n = some p)
    (hopen : p.isOpen = true) (s : Skeleton) :
    (f.reuse n s).2.Replayed s p.node ∧
      (f.reuse n s).1 = .ok ((f.reuse n s).2.nodeClosed n) := by
  obtain ⟨⟨t, q⟩, located, rfl⟩ := Option.map_eq_some_iff.mp hnode
  -- an applied node is not replayed at all, which is why it has to be open
  obtain ⟨node, rfl⟩ : ∃ node, q = .openNode node := by
    cases q with
    | openNode node => exact ⟨node, rfl⟩
    | applied node rule skipped children => cases hopen
  have hid : node.id = n := id_of_locate? located
  have hs := s.every_true
  obtain ⟨hanswer, hgrow⟩ := reuse_grow hs hf.wf located
  have hwf := hf.wf.moves (reuse_moves hf.wf hs n)
  obtain ⟨t', -, located'⟩ := locate?_grow hf.wf hwf located hgrow
    ((ProofTree.id_regrow _ node s).trans hid)
  have hgrown : (f.reuse n s).2.node? n = some (regrow f.slots node s).1 := by
    rw [node?, located']
    rfl
  refine ⟨replayed_of_regrow hwf s f.slots node ?_, ?_⟩
  · rw [hid]
    exact hgrown
  · rw [hanswer, nodeClosed, hgrown]

/-- A rule with two antecedents: `⊤`, and the goal itself once more. -/
def twofold : Rule where
  reasoner := "twofold"
  display := "twofold"
  confidence := .reviewedMax
  antecedents := [{ goal := some .top }, {}]

/-- A rule that applies to the goal `⊥` only. -/
def atBottom : Rule where
  reasoner := "at bottom"
  display := "at bottom"
  goal := some .bottom
  confidence := .reviewedMax

/-- A skeleton with one child where its rule gives two; below it is a rule that
    does not apply, with a child nonetheless. -/
def lopsided : Skeleton :=
  .mk "" (some twofold) [.mk "left" (some atBottom) [.mk "lost" none []]]

/-- Replayed at a node with a comment, which stays. -/
theorem lopsided_replayed :
    ∃ p, moved.node? ⟨2, 0⟩ = some p ∧ p.isOpen = true ∧ p.comment = "later" ∧
      (moved.reuse ⟨2, 0⟩ lopsided).2.Replayed lopsided p.node ∧
      (moved.reuse ⟨2, 0⟩ lopsided).1 =
        .ok ((moved.reuse ⟨2, 0⟩ lopsided).2.nodeClosed ⟨2, 0⟩) := by
  let p := (moved.node? ⟨2, 0⟩).get (by decide +kernel)
  have hnode : moved.node? ⟨2, 0⟩ = some p := (Option.some_get _).symm
  have hopen : p.isOpen = true := by decide +kernel
  have hcomment : p.comment = "later" := by decide +kernel
  exact ⟨p, hnode, hopen, hcomment,
    reuse_replays_prefix (moved_reachable trivial) hnode hopen lopsided⟩

end SequentProver.Forest
