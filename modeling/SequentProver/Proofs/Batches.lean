import SequentProver.Proofs.ChangeAccount

/-! # Batches

    Operations on a forest, seen from one of its trees.  Inside a batch on the
    tree it goes through edits, changes of its listeners and batches that open
    and close again, and its listeners hear nothing; what happens to other trees
    leaves it alone.  When the outermost batch ends, the records are told.

    Route:
    1. how opening, closing and updating change the trees that are looked up;
    2. `Tree.Step`, what a tree can go through while a batch is open;
    3. `Quiet`, `Inside` and `Keeps`, three ways in which a part of a run looks
       from the tree, and how they compose;
    4. every operation other than one that opens or closes a batch on the tree
       keeps the tree;
    5. `Session`, an outermost batch or a single operation outside of batches:
       the tree is left alone, or it changes inside one batch. -/

namespace SequentProver

open ProofTree (Declares)

/-! ## A tree through a batch -/

namespace Tree

/-- The tree with one more batch open. -/
def opened (t : Tree) : Tree := { t with batches := t.batches + 1 }

/-- The tree with one batch less; nothing stays recorded after the last. -/
def closed (t : Tree) : Tree :=
  { t with batches := t.batches - 1, records := if t.batches ≤ 1 then [] else t.records }

/-- What the listeners hear when a batch on the tree ends. -/
def told (t : Tree) : List Notice :=
  if t.batches ≤ 1 then (t.delta?.map fun delta => t.listeners.map fun l => ⟨l, delta⟩).getD []
  else []

/-- A notice names the tree that it is about. -/
theorem tree_of_told {t : Tree} : ∀ n ∈ t.told, n.delta.tree = t.id := by
  intro n hn
  rw [told] at hn
  split at hn
  · cases hdelta : t.delta? with
    | none =>
        rw [hdelta] at hn
        exact nomatch hn
    | some delta =>
        rw [hdelta] at hn
        obtain ⟨l, -, rfl⟩ := List.mem_map.mp hn
        obtain ⟨root, -, rfl⟩ := Option.map_eq_some_iff.mp hdelta
        rfl
  · exact nomatch hn

/-- The end of an inner batch tells nobody. -/
theorem told_of_nested {t : Tree} (h : 1 < t.batches) : t.told = [] :=
  if_neg (Nat.not_le.mpr h)

/-- Only the end of the outermost batch clears the records. -/
theorem records_closed {t : Tree} (h : 1 < t.batches) : t.closed.records = t.records :=
  if_neg (Nat.not_le.mpr h)

/-- An edit keeps the handle of the tree. -/
theorem id_editNode (t : Tree) (n : NodeId) (flags : DeltaFlags)
    (change : ProofTree → ProofTree) : (t.editNode n flags change).id = t.id := by
  rw [editNode]
  split <;> rfl

/-- An edit neither begins nor ends a batch. -/
theorem batches_editNode (t : Tree) (n : NodeId) (flags : DeltaFlags)
    (change : ProofTree → ProofTree) : (t.editNode n flags change).batches = t.batches := by
  rw [editNode]
  split <;> rfl

/-- What can happen to a tree while a batch on it is open. -/
inductive Step : Tree → Tree → Prop
  | edit {t : Tree} {flags : DeltaFlags} {change : ProofTree → ProofTree} (n : NodeId)
      (made : Declares flags change) : Step t (t.editNode n flags change)
  | attend {t : Tree} (listeners : List Nat) (nextListener : Nat) :
      Step t { t with listeners := listeners, nextListener := nextListener }
  | opened {t : Tree} : Step t t.opened
  | closed {t : Tree} (nested : 1 < t.batches) : Step t t.closed

/-- Steps of a tree, one after the other. -/
abbrev Steps : Tree → Tree → Prop := Relation.ReflTransGen Step

end Tree

namespace Forest

variable {f g h : Forest} {tree other : TreeId} {t t' : Tree} {n : NodeId}

/-! ## Looking up after a change -/

/-- A change of one tree is seen at that tree only. -/
theorem tree?_updateTree {change : Tree → Tree} (hid : ∀ t, (change t).id = t.id) (f : Forest)
    (tree other : TreeId) :
    (f.updateTree tree change).tree? other =
      if other = tree then (f.tree? other).map change else f.tree? other := by
  -- the handle of a tree does not change, so a lookup finds the same place
  have hsame : ∀ t : Tree, (if t.id = tree then change t else t).id = t.id := by
    intro t
    split
    · exact hid t
    · rfl
  have hfind : (f.updateTree tree change).tree? other =
      (f.tree? other).map fun t => if t.id = tree then change t else t := by
    rw [tree?, updateTree, List.find?_map, tree?]
    congr 2
    funext t
    exact congrArg (fun id => decide (id = other)) (hsame t)
  rw [hfind]
  cases hfound : f.tree? other with
  | none => split <;> rfl
  | some t =>
      have hother : t.id = other := by simpa using List.find?_some hfound
      rw [← hother, Option.map_some, Option.map_some]
      split <;> rfl

/-- Beginning a batch is seen at its tree only. -/
theorem tree?_beginBatch (f : Forest) (tree other : TreeId) :
    (f.beginBatch tree).tree? other =
      if other = tree then (f.tree? other).map Tree.opened else f.tree? other := by
  show (f.updateTree tree Tree.opened).tree? other = _
  rw [tree?_updateTree]
  intro t
  rfl

/-- Ending a batch is seen at its tree only. -/
theorem tree?_endBatch (f : Forest) (tree other : TreeId) :
    (f.endBatch tree).tree? other =
      if other = tree then (f.tree? other).map Tree.closed else f.tree? other := by
  cases hfound : f.tree? tree with
  | none =>
      rw [endBatch, hfound]
      show f.tree? other = _
      split
      · rename_i hother
        rw [hother, hfound]
        rfl
      · rfl
  | some t =>
      rw [endBatch, hfound]
      dsimp only
      -- the last batch to end also empties the books, in a second update
      by_cases hlast : t.batches ≤ 1
      · rw [if_pos hlast]
        show ((f.updateTree tree _).updateTree tree _).tree? other = _
        rw [tree?_updateTree, tree?_updateTree]
        · split
          · rename_i hother
            rw [hother, hfound, Option.map_some, Option.map_some, Option.map_some, Tree.closed,
              if_pos hlast]
          · rfl
        all_goals exact fun _ => rfl
      · rw [if_neg hlast, tree?_updateTree]
        · split
          · rename_i hother
            rw [hother, hfound, Option.map_some, Option.map_some, Tree.closed, if_neg hlast]
          · rfl
        · exact fun _ => rfl

/-- A batch that ends uses up no handles. -/
theorem nextTree_endBatch (f : Forest) (tree : TreeId) :
    (f.endBatch tree).nextTree = f.nextTree := by
  rw [endBatch]
  split
  · rfl
  · dsimp only
    split <;> rfl

/-- The end of a batch tells what its tree has to tell. -/
theorem notices_endBatch (f : Forest) (tree : TreeId) :
    (f.endBatch tree).notices = f.notices ++ ((f.tree? tree).map Tree.told).getD [] := by
  rw [endBatch]
  cases f.tree? tree with
  | none => exact (List.append_nil _).symm
  | some t =>
      dsimp only
      rw [Option.map_some, Option.getD_some, Tree.told]
      split
      · cases t.delta? with
        | none => rfl
        | some delta => rfl
      · exact (List.append_nil _).symm

/-- The end of an inner batch tells nobody. -/
theorem notices_endBatch_of_nested (hnested : ∀ t, f.tree? tree = some t → 1 < t.batches) :
    (f.endBatch tree).notices = f.notices := by
  rw [notices_endBatch]
  cases hfound : f.tree? tree with
  | none => exact List.append_nil _
  | some t =>
      rw [Option.map_some, Option.getD_some, Tree.told_of_nested (hnested t hfound)]
      exact List.append_nil _

/-! ## A run seen from one tree -/

/-- None of the notices since are about the tree. -/
def Silent (tree : TreeId) (f g : Forest) : Prop :=
  ∃ new, g.notices = f.notices ++ new ∧ ∀ notice ∈ new, notice.delta.tree ≠ tree

/-- A batch on the tree is open, as long as the tree is there. -/
def Busy (tree : TreeId) (f : Forest) : Prop := ∀ t, f.tree? tree = some t → 0 < t.batches

/-- The tree is left alone, unless it is removed. -/
structure Quiet (tree : TreeId) (f g : Forest) : Prop where
  issued : tree.number < g.nextTree
  same : ∀ t, g.tree? tree = some t → f.tree? tree = some t
  silent : Silent tree f g

/-- The tree takes steps, unless it is removed, and nothing is told of it. -/
structure Inside (tree : TreeId) (f g : Forest) : Prop where
  issued : tree.number < g.nextTree
  steps : ∀ t', g.tree? tree = some t' → ∃ t, f.tree? tree = some t ∧ t.Steps t'
  silent : Silent tree f g

/-- As many batches are open on the tree as before; inside a batch on the tree
    it takes steps only. -/
structure Keeps (tree : TreeId) (f g : Forest) : Prop where
  issued : tree.number < g.nextTree
  depth : ∀ t', g.tree? tree = some t' → ∃ t, f.tree? tree = some t ∧ t'.batches = t.batches
  inside : Busy tree f → Inside tree f g

theorem Silent.of_eq (heq : g.notices = f.notices) : Silent tree f g :=
  ⟨[], by rw [heq, List.append_nil], fun _ hmem => nomatch hmem⟩

/-- Silence after silence is silence. -/
theorem Silent.trans (hfg : Silent tree f g) (hgh : Silent tree g h) : Silent tree f h := by
  obtain ⟨new, hnew, habout⟩ := hfg
  obtain ⟨more, hmore, habout'⟩ := hgh
  refine ⟨new ++ more, by rw [hmore, hnew, List.append_assoc], ?_⟩
  intro notice hmem
  rcases List.mem_append.mp hmem with hmem | hmem
  · exact habout notice hmem
  · exact habout' notice hmem

theorem Quiet.refl (hf : tree.number < f.nextTree) : Quiet tree f f :=
  ⟨hf, fun _ ht => ht, Silent.of_eq rfl⟩

/-- Quiet steps one after the other are quiet. -/
theorem Quiet.trans (hfg : Quiet tree f g) (hgh : Quiet tree g h) : Quiet tree f h :=
  ⟨hgh.issued, fun t ht => hfg.same t (hgh.same t ht), hfg.silent.trans hgh.silent⟩

/-- Steps inside a batch one after the other are inside it. -/
theorem Inside.trans (hfg : Inside tree f g) (hgh : Inside tree g h) : Inside tree f h where
  issued := hgh.issued
  steps t'' ht'' := by
    obtain ⟨t', ht', hsteps'⟩ := hgh.steps t'' ht''
    obtain ⟨t, ht, hsteps⟩ := hfg.steps t' ht'
    exact ⟨t, ht, hsteps.trans hsteps'⟩
  silent := hfg.silent.trans hgh.silent

/-- A quiet step is inside any batch. -/
theorem Quiet.inside (hfg : Quiet tree f g) : Inside tree f g :=
  ⟨hfg.issued, fun t ht => ⟨t, hfg.same t ht, .refl⟩, hfg.silent⟩

/-- A quiet step keeps the batches. -/
theorem Quiet.keeps (hfg : Quiet tree f g) : Keeps tree f g :=
  ⟨hfg.issued, fun t ht => ⟨t, hfg.same t ht, rfl⟩, fun _ => hfg.inside⟩

/-- A batch stays open over what keeps the batches. -/
theorem Keeps.busy (hfg : Keeps tree f g) (hbusy : Busy tree f) : Busy tree g := by
  intro t' ht'
  obtain ⟨t, ht, hdepth⟩ := hfg.depth t' ht'
  rw [hdepth]
  exact hbusy t ht

/-- What keeps the batches step by step keeps them altogether. -/
theorem Keeps.trans (hfg : Keeps tree f g) (hgh : Keeps tree g h) : Keeps tree f h where
  issued := hgh.issued
  depth t'' ht'' := by
    obtain ⟨t', ht', hdepth'⟩ := hgh.depth t'' ht''
    obtain ⟨t, ht, hdepth⟩ := hfg.depth t' ht'
    exact ⟨t, ht, hdepth'.trans hdepth⟩
  inside hbusy := (hfg.inside hbusy).trans (hgh.inside (hfg.busy hbusy))

/-! ## Planting and removing -/

/-- The trees that stay are those that were there. -/
theorem tree?_of_removeTree (ht : (f.removeTree other).2.tree? tree = some t) :
    f.tree? tree = some t := by
  rw [removeTree] at ht
  split at ht
  · exact ht
  · rw [tree?, List.find?_filter] at ht
    have hfound := List.find?_some ht
    simp only [decide_eq_true_eq] at hfound
    obtain ⟨hother, hid⟩ := hfound
    have hne : tree ≠ other := hid ▸ hother
    -- they are looked up by another handle
    rw [tree?, ← ht]
    congr 1
    funext u
    by_cases hu : u.id = tree
    · simp [hu, hne]
    · simp [hu]

section Quiet

variable (hf : tree.number < f.nextTree)
include hf

/-- Slots are no business of a listener. -/
theorem quiet_slots (slots : Slots) : Quiet tree f { f with slots := slots } :=
  ⟨hf, fun _ ht => ht, Silent.of_eq rfl⟩

/-- Planting another tree is quiet. -/
theorem quiet_plant (origin : Option String) (proof : ProofTree) :
    Quiet tree f (f.plant origin proof).2 := by
  refine ⟨Nat.lt_succ_of_lt hf, ?_, Silent.of_eq rfl⟩
  intro t ht
  -- the new tree has a handle of its own
  have hne : (⟨f.nextTree⟩ : TreeId) ≠ tree := fun heq => Nat.lt_irrefl _ (heq ▸ hf)
  rw [plant, tree?, List.find?_append] at ht
  have hnew : List.find? (fun t : Tree => decide (t.id = tree))
      [{ id := ⟨f.nextTree⟩, origin := origin, proof := proof }] = none := by
    rw [List.find?_cons_of_neg (by simpa using hne), List.find?_nil]
  rw [hnew, Option.or_none] at ht
  exact ht

theorem quiet_createTree (s : Sequent) (origin : Option String) :
    Quiet tree f (f.createTree s origin).2 :=
  (quiet_slots hf f.slots.alloc.2).trans
    (quiet_plant (f := { f with slots := f.slots.alloc.2 }) hf origin _)

/-- A copy is another tree, so making it is quiet. -/
theorem quiet_copySubtree (n : NodeId) : Quiet tree f (f.copySubtree n).2 := by
  rw [copySubtree]
  split
  · exact Quiet.refl hf
  · rename_i proof _
    exact (quiet_slots hf (f.slots.copy proof).2).trans
      (quiet_plant (f := { f with slots := (f.slots.copy proof).2 }) hf none _)

/-- Removing a tree is quiet, be it this one or another. -/
theorem quiet_removeTree (other : TreeId) : Quiet tree f (f.removeTree other).2 := by
  refine ⟨?_, fun t ht => tree?_of_removeTree ht, Silent.of_eq ?_⟩
  · rw [removeTree]
    split <;> exact hf
  · rw [removeTree]
    split <;> rfl

end Quiet

/-- Planting several trees is quiet. -/
theorem quiet_plantAll (hf : tree.number < f.nextTree) (proofs : List ProofTree) :
    Quiet tree f (f.plantAll proofs).2 := by
  induction proofs generalizing f with
  | nil => exact Quiet.refl hf
  | cons proof rest ih =>
      have hplant := quiet_plant hf none proof
      exact hplant.trans (ih hplant.issued)

/-- Removing several trees is quiet. -/
theorem quiet_removeTrees (hf : tree.number < f.nextTree) (trees : List TreeId) :
    Quiet tree f (f.removeTrees trees) := by
  induction trees generalizing f with
  | nil => exact Quiet.refl hf
  | cons other rest ih =>
      have hremove := quiet_removeTree hf other
      exact hremove.trans (ih hremove.issued)

/-! ## Batches on other trees -/

/-- Batches on another tree begin quietly. -/
theorem quiet_beginBatch (hf : tree.number < f.nextTree) (hne : tree ≠ other) :
    Quiet tree f (f.beginBatch other) := by
  refine ⟨hf, ?_, Silent.of_eq rfl⟩
  intro t ht
  rwa [tree?_beginBatch, if_neg hne] at ht

/-- Batches on another tree end without telling this one's listeners. -/
theorem quiet_endBatch (hf : tree.number < f.nextTree) (hne : tree ≠ other) :
    Quiet tree f (f.endBatch other) := by
  refine ⟨by rwa [nextTree_endBatch], ?_, _, notices_endBatch f other, ?_⟩
  · intro t ht
    rwa [tree?_endBatch, if_neg hne] at ht
  · intro notice hmem
    cases hfound : f.tree? other with
    | none =>
        rw [hfound] at hmem
        exact nomatch hmem
    | some t =>
        rw [hfound] at hmem
        have hid : t.id = other := by simpa using List.find?_some hfound
        rw [Tree.tree_of_told notice hmem, hid]
        exact Ne.symm hne

/-! ## Changes of a tree -/

/-- A change of some tree that is a step and keeps its batches. -/
theorem keeps_updateTree {change : Tree → Tree} (hf : tree.number < f.nextTree)
    (hid : ∀ t, (change t).id = t.id) (hdepth : ∀ t, (change t).batches = t.batches)
    (hstep : ∀ t, Tree.Step t (change t)) (other : TreeId) :
    Keeps tree f (f.updateTree other change) := by
  have hlookup : ∀ t', (f.updateTree other change).tree? tree = some t' →
      ∃ t, f.tree? tree = some t ∧ t'.batches = t.batches ∧ t.Steps t' := by
    intro t' ht'
    rw [tree?_updateTree hid] at ht'
    split at ht'
    · obtain ⟨t, ht, rfl⟩ := Option.map_eq_some_iff.mp ht'
      exact ⟨t, ht, hdepth t, .single (hstep t)⟩
    · exact ⟨t', ht', rfl, .refl⟩
  refine ⟨hf, ?_, fun _ => ⟨hf, ?_, Silent.of_eq rfl⟩⟩
  · intro t' ht'
    obtain ⟨t, ht, hsame, -⟩ := hlookup t' ht'
    exact ⟨t, ht, hsame⟩
  · intro t' ht'
    obtain ⟨t, ht, -, hsteps⟩ := hlookup t' ht'
    exact ⟨t, ht, hsteps⟩

/-- An edit that declares what it does keeps the batches of every tree. -/
theorem keeps_editNode {flags : DeltaFlags} {change : ProofTree → ProofTree}
    (hf : tree.number < f.nextTree) (made : Declares flags change) (other : TreeId) (n : NodeId) :
    Keeps tree f (f.editNode other n flags change) :=
  keeps_updateTree hf (fun t => t.id_editNode n flags change)
    (fun t => t.batches_editNode n flags change) (fun _ => .edit n made) other

/-- A new listener keeps the batches. -/
theorem keeps_addListener (hf : tree.number < f.nextTree) (other : TreeId) :
    Keeps tree f (f.addListener other).2 := by
  rw [addListener]
  split
  · exact (Quiet.refl hf).keeps
  · refine keeps_updateTree hf ?_ ?_ ?_ other
    · exact fun _ => rfl
    · exact fun _ => rfl
    · exact fun t => .attend _ _

/-- A listener that leaves keeps the batches. -/
theorem keeps_removeListener (hf : tree.number < f.nextTree) (other : TreeId) (listener : Nat) :
    Keeps tree f (f.removeListener other listener).2 := by
  rw [removeListener]
  split
  · exact (Quiet.refl hf).keeps
  · refine keeps_updateTree hf ?_ ?_ ?_ other
    · exact fun _ => rfl
    · exact fun _ => rfl
    · exact fun t => .attend _ t.nextListener

/-! ## Batches on the tree -/

/-- A tree in a batch is the one from before, with the batch counted. -/
theorem tree?_opened (hfound : (f.beginBatch tree).tree? tree = some t') :
    ∃ t, f.tree? tree = some t ∧ t' = t.opened := by
  rw [tree?_beginBatch, if_pos rfl] at hfound
  obtain ⟨t, ht, hopened⟩ := Option.map_eq_some_iff.mp hfound
  exact ⟨t, ht, hopened.symm⟩

/-- A tree after a batch is the one from before, closed. -/
theorem tree?_closed (hfound : (f.endBatch tree).tree? tree = some t') :
    ∃ t, f.tree? tree = some t ∧ t' = t.closed := by
  rw [tree?_endBatch, if_pos rfl] at hfound
  obtain ⟨t, ht, hclosed⟩ := Option.map_eq_some_iff.mp hfound
  exact ⟨t, ht, hclosed.symm⟩

/-- The tree is busy once a batch has begun. -/
theorem busy_beginBatch (f : Forest) (tree : TreeId) : Busy tree (f.beginBatch tree) := by
  intro t' ht'
  obtain ⟨t, -, rfl⟩ := tree?_opened ht'
  exact Nat.succ_pos _

/-- A batch that begins is inside those already open. -/
theorem inside_beginBatch (hf : tree.number < f.nextTree) : Inside tree f (f.beginBatch tree) := by
  refine ⟨hf, ?_, Silent.of_eq rfl⟩
  intro t' ht'
  obtain ⟨t, ht, rfl⟩ := tree?_opened ht'
  exact ⟨t, ht, .single .opened⟩

/-- An inner batch that ends is inside the outer one. -/
theorem inside_endBatch (hf : tree.number < f.nextTree)
    (hnested : ∀ t, f.tree? tree = some t → 1 < t.batches) : Inside tree f (f.endBatch tree) := by
  refine ⟨by rwa [nextTree_endBatch], ?_, Silent.of_eq (notices_endBatch_of_nested hnested)⟩
  intro t' ht'
  obtain ⟨t, ht, rfl⟩ := tree?_closed ht'
  exact ⟨t, ht, .single (.closed (hnested t ht))⟩

/-- A batch around a run that keeps the tree keeps it too. -/
theorem keeps_batch (hf : tree.number < f.nextTree) (other : TreeId)
    (hrun : Keeps tree (f.beginBatch other) g) : Keeps tree f (g.endBatch other) := by
  by_cases hne : tree = other
  · subst hne
    have hdepth : ∀ t₁, g.tree? tree = some t₁ →
        ∃ t, f.tree? tree = some t ∧ t₁.batches = t.batches + 1 := by
      intro t₁ ht₁
      obtain ⟨t₀, ht₀, hsame⟩ := hrun.depth t₁ ht₁
      obtain ⟨t, ht, rfl⟩ := tree?_opened ht₀
      exact ⟨t, ht, hsame⟩
    refine ⟨by rw [nextTree_endBatch]; exact hrun.issued, ?_, ?_⟩
    · intro t' ht'
      obtain ⟨t₁, ht₁, rfl⟩ := tree?_closed ht'
      obtain ⟨t, ht, hsame⟩ := hdepth t₁ ht₁
      refine ⟨t, ht, ?_⟩
      show t₁.batches - 1 = t.batches
      rw [hsame, Nat.add_sub_cancel]
    · intro hbusy
      -- a batch was open before, so the one that closes is not the outermost
      have hnested : ∀ t₁, g.tree? tree = some t₁ → 1 < t₁.batches := by
        intro t₁ ht₁
        obtain ⟨t, ht, hsame⟩ := hdepth t₁ ht₁
        have hopen := hbusy t ht
        omega
      exact ((inside_beginBatch hf).trans (hrun.inside (busy_beginBatch f tree))).trans
        (inside_endBatch hrun.issued hnested)
  · exact ((quiet_beginBatch hf hne).keeps.trans hrun).trans (quiet_endBatch hrun.issued hne).keeps

/-! ## Operations on a node -/

/-- Putting on a rule keeps the batches. -/
theorem keeps_attach (hf : tree.number < f.nextTree) (other : TreeId) (n : NodeId) (rule : Rule)
    (skipped : SkippedActions) (children : List ProofTree) :
    Keeps tree f
      (f.editNode other n ruleFlags fun p => .applied p.node rule skipped children) := by
  refine keeps_editNode hf (ProofTree.declares_rule ?_) other n
  intro p
  rfl

/-- Taking off a rule keeps the batches. -/
theorem keeps_detach (hf : tree.number < f.nextTree) (other : TreeId) (n : NodeId) :
    Keeps tree f (f.editNode other n ruleFlags ProofTree.withoutRule) := by
  refine keeps_editNode hf (ProofTree.declares_rule ?_) other n
  intro p
  rfl

/-- The operation did nothing, or all it did was one batch on the tree of the
    node. -/
def Batched (n : NodeId) (f g : Forest) : Prop :=
  g = f ∨ ∃ tree g₁, f.treeOf n = .ok tree ∧ g = g₁.endBatch tree ∧
    ∀ other : TreeId, other.number < f.nextTree → Keeps other (f.beginBatch tree) g₁

/-- An operation in a batch of its own keeps the batches. -/
theorem Batched.keeps (hrun : Batched n f g) (hf : tree.number < f.nextTree) : Keeps tree f g := by
  rcases hrun with rfl | ⟨other, g₁, -, rfl, hkeeps⟩
  · exact (Quiet.refl hf).keeps
  · exact keeps_batch hf other (hkeeps tree hf)

/-- A rule is applied inside one batch on the tree of its node. -/
theorem applyRule_batched (f : Forest) (n : NodeId) (rule : Rule) :
    Batched n f (f.applyRule n rule).2 := by
  rw [applyRule]
  split
  · exact .inl rfl
  · rename_i t p located
    split
    · split
      · exact .inl rfl
      · rename_i sequents skipped _
        refine .inr ⟨t.id, _, by rw [treeOf, located], rfl, ?_⟩
        intro other hf
        have hslots := quiet_slots (f := f.beginBatch t.id) hf
          ((f.beginBatch t.id).slots.openNodes sequents).2
        exact hslots.keeps.trans (keeps_attach hslots.issued t.id n rule skipped _)
    · exact .inl rfl

/-- A comment is set inside one batch. -/
theorem setComment_batched (f : Forest) (n : NodeId) (comment : String) :
    Batched n f (f.setComment n comment).2 := by
  rw [setComment]
  split
  · exact .inl rfl
  · rename_i t p located
    split
    · exact .inl rfl
    · refine .inr ⟨t.id, _, by rw [treeOf, located], rfl, ?_⟩
      intro other hf
      exact keeps_editNode (f := f.beginBatch t.id) hf (ProofTree.declares_comment comment) t.id n

/-- Subtrees are pruned inside one batch. -/
theorem pruneChildren_batched (f : Forest) (n : NodeId) :
    Batched n f (f.pruneChildren n).2 := by
  rw [pruneChildren]
  split
  · exact .inl rfl
  · rename_i t p located
    split
    · exact .inl rfl
    · refine .inr ⟨t.id, _, by rw [treeOf, located], rfl, ?_⟩
      intro other hf
      have hdetach := keeps_detach (f := f.beginBatch t.id) hf t.id n
      exact hdetach.trans (quiet_plantAll hdetach.issued p.children).keeps

/-- What a graft does to the two trees between the batches on them. -/
theorem keeps_graft (hf : tree.number < f.nextTree) (target source : TreeId) (n root : NodeId)
    (rule : Rule) (skipped : SkippedActions) (children : List ProofTree) :
    Keeps tree f ((f.editNode source root ruleFlags ProofTree.withoutRule).editNode target n
      ruleFlags fun p => .applied p.node rule skipped children) := by
  have hdetach := keeps_detach hf source root
  exact hdetach.trans (keeps_attach hdetach.issued target n rule skipped children)

/-- A graft is inside one batch on the target and another on the source. -/
theorem graft_batched (f : Forest) (n : NodeId) (source : TreeId) :
    Batched n f (f.graft n source).2 := by
  rw [graft]
  split
  · exact .inl rfl
  · exact .inl rfl
  · rename_i t target donor located _
    split
    · exact .inl rfl
    · rename_i root rule skipped children _
      split
      · refine .inr ⟨t.id, _, by rw [treeOf, located], rfl, ?_⟩
        intro other hf
        exact keeps_batch (f := f.beginBatch t.id) hf source
          (keeps_graft (f := (f.beginBatch t.id).beginBatch source) hf t.id source n root.id rule
            skipped children)
      · exact .inl rfl

/-- A step with a reasoner is inside one batch. -/
theorem applyReasoner_batched (f : Forest) (n : NodeId) (reasoner : Reasoner) (input : Input)
    (monitor : Monitor) : Batched n f (f.applyReasoner n reasoner input monitor).forest := by
  have hany : reasoner.Proposes fun _ => True := fun _ _ _ _ _ _ => trivial
  rcases applyReasoner_forest hany n input monitor with hsame | ⟨rule, -, happly⟩
  · exact .inl hsame
  · rw [happly]
    exact applyRule_batched f n rule

theorem Replays.keeps {allowed : Rule → Prop} (hrun : Replays allowed f g)
    (hf : tree.number < f.nextTree) : Keeps tree f g := by
  induction hrun with
  | refl => exact (Quiet.refl hf).keeps
  | tail _ step ih =>
      refine ih.trans ?_
      cases step with
      | rule n _ => exact (applyRule_batched _ n _).keeps ih.issued
      | comment n comment => exact (setComment_batched _ n comment).keeps ih.issued

theorem reuse_batched (f : Forest) (n : NodeId) (skeleton : Skeleton) :
    Batched n f (f.reuse n skeleton).2 := by
  cases htree : f.treeOf n with
  | error e => exact .inl (by rw [reuse, htree])
  | ok tree =>
      refine .inr ⟨tree, _, htree, reuse_forest htree, ?_⟩
      intro other hf
      exact Replays.keeps (reuseNode_replays skeleton.every_true n) hf

/-- A rebuild is inside one batch. -/
theorem rebuild_batched (f : Forest) (n : NodeId) (skeleton : Skeleton) (registry : Registry)
    (monitor : Monitor) (config : ReplayConfig) :
    Batched n f (f.rebuild n skeleton registry monitor config).2 := by
  cases htree : f.treeOf n with
  | error e => exact .inl (by rw [rebuild, htree])
  | ok tree =>
      refine .inr ⟨tree, _, htree, rebuild_forest htree, ?_⟩
      intro other hf
      have hany : registry.Proposes fun _ => True := fun _ _ _ _ _ _ _ _ _ => trivial
      exact Replays.keeps
        (rebuildNode_replays hany skeleton.every_true config ⟨f.beginBatch tree, monitor⟩ n) hf

/-- Discarding what is pruned off: a prune, and then trees are removed. -/
theorem pruneAndDiscard_forest (f : Forest) (n : NodeId) :
    ∃ trees, (f.pruneAndDiscard n).2 = (f.pruneChildren n).2.removeTrees trees := by
  rw [pruneAndDiscard]
  split
  · rename_i hrun
    rw [hrun]
    exact ⟨[], rfl⟩
  · rename_i trees f' hrun
    rw [hrun]
    exact ⟨trees, rfl⟩

end Forest

/-! ## All operations -/

namespace Op

open Forest

variable {f : Forest} {tree : TreeId}

/-- Every operation keeps a tree, unless it opens or closes a batch on it. -/
theorem keeps (op : Op) (hf : tree.number < f.nextTree) (hbegin : op ≠ .beginBatch tree)
    (hend : op ≠ .endBatch tree) : Keeps tree f (op.run f) := by
  cases op with
  | createTree sequent origin => exact (quiet_createTree hf sequent origin).keeps
  | removeTree other => exact (quiet_removeTree hf other).keeps
  | copySubtree node => exact (quiet_copySubtree hf node).keeps
  | applyRule node rule => exact (applyRule_batched f node rule).keeps hf
  | applyReasoner node reasoner input monitor =>
      exact (applyReasoner_batched f node reasoner input monitor).keeps hf
  | pruneChildren node => exact (pruneChildren_batched f node).keeps hf
  -- the pruning is in a batch, and removing the pruned trees tells nobody anything
  | pruneAndDiscard node =>
      obtain ⟨trees, hrun⟩ := pruneAndDiscard_forest f node
      have hprune := (pruneChildren_batched f node).keeps hf
      rw [run, hrun]
      exact hprune.trans (quiet_removeTrees hprune.issued trees).keeps
  | setComment node comment => exact (setComment_batched f node comment).keeps hf
  | graft node source => exact (graft_batched f node source).keeps hf
  | reuse node skeleton => exact (reuse_batched f node skeleton).keeps hf
  | rebuild node skeleton registry monitor config =>
      exact (rebuild_batched f node skeleton registry monitor config).keeps hf
  | addListener other => exact keeps_addListener hf other
  | removeListener other listener => exact keeps_removeListener hf other listener
  | beginBatch other =>
      exact (quiet_beginBatch hf fun heq => hbegin (heq ▸ rfl)).keeps
  | endBatch other =>
      exact (quiet_endBatch hf fun heq => hend (heq ▸ rfl)).keeps

/-- While a batch on the tree stays open, any operation is a part of it. -/
theorem inside (op : Op) (hf : tree.number < f.nextTree) (hbusy : Busy tree f)
    (hbusy' : Busy tree (op.run f)) : Inside tree f (op.run f) := by
  by_cases hbegin : op = .beginBatch tree
  · subst hbegin
    exact inside_beginBatch hf
  · by_cases hend : op = .endBatch tree
    · subst hend
      refine inside_endBatch hf ?_
      intro t ht
      have hclosed : (f.endBatch tree).tree? tree = some t.closed := by
        rw [tree?_endBatch, if_pos rfl, ht]
        rfl
      have hleft : 0 < t.batches - 1 := hbusy' _ hclosed
      omega
    · exact (op.keeps hf hbegin hend).inside hbusy

/-- The operation is on the tree: on one of its nodes, on the tree as a whole,
    or it grafts the tree's proof to another one. -/
def On (f : Forest) (tree : TreeId) : Op → Prop
  | .createTree _ _ | .beginBatch _ | .endBatch _ => False
  | .removeTree other | .addListener other | .removeListener other _ => other = tree
  | .copySubtree node | .applyRule node _ | .applyReasoner node _ _ _ | .pruneChildren node
  | .pruneAndDiscard node | .setComment node _ | .reuse node _ | .rebuild node _ _ _ _ =>
    f.treeOf node = .ok tree
  | .graft node source => f.treeOf node = .ok tree ∨ source = tree

end Op

/-! ## Sessions -/

namespace Forest

variable {f g h : Forest} {tree : TreeId} {n : NodeId}

/-- Operations while a batch on the tree stays open. -/
inductive During (tree : TreeId) (f : Forest) : Forest → Prop
  | start : During tree f f
  | step {g : Forest} (op : Op) (during : During tree f g) (within : op.Within fun _ => True)
      (busy : Busy tree (op.run g)) : During tree f (op.run g)

/-- A single operation on a tree outside of batches, or a batch on the tree
    from its begin to the end that closes it, with anything in between. -/
inductive Session (tree : TreeId) (f : Forest) : Forest → Prop
  | single (op : Op) (on : op.On f tree) (within : op.Within fun _ => True) :
      Session tree f (op.run f)
  | batch {g : Forest} (during : During tree (f.beginBatch tree) g)
      (last : ∀ t, g.tree? tree = some t → t.batches = 1) : Session tree f (g.endBatch tree)

/-- What is reached during a batch is reachable. -/
theorem During.reachable (hrun : During tree f g) (hf : f.Reachable) : g.Reachable := by
  induction hrun with
  | start => exact hf
  | step op _ within _ ih => exact .step op ih within

/-- What is reached in a session is reachable. -/
theorem Session.reachable (hs : Session tree f g) (hf : f.Reachable) : g.Reachable := by
  cases hs with
  | single op _ within => exact .step op hf within
  | batch during _ =>
      exact .step (.endBatch tree)
        (during.reachable (.step (.beginBatch tree) hf trivial)) trivial

/-- Whatever happens during a batch, the batch stays open and nothing is told
    of the tree. -/
theorem During.inside (hrun : During tree f g) (hf : tree.number < f.nextTree)
    (hbusy : Busy tree f) : Inside tree f g ∧ Busy tree g := by
  induction hrun with
  | start => exact ⟨(Quiet.refl hf).inside, hbusy⟩
  | step op _ _ busy ih =>
      obtain ⟨hinside, hbusy'⟩ := ih
      exact ⟨hinside.trans (op.inside hinside.issued hbusy' busy), busy⟩

/-- What a session comes to: the proof of the tree stays, or the tree goes
    through one outermost batch and is otherwise left alone. -/
inductive Bracketed (tree : TreeId) (f g : Forest) : Prop
  | still (same : ∀ t', g.tree? tree = some t' → ∃ t, f.tree? tree = some t ∧ t'.proof = t.proof)
      (silent : Silent tree f g)
  | batch {f₁ g₁ : Forest} (before : Quiet tree f f₁) (inside : Inside tree (f₁.beginBatch tree) g₁)
      (last : ∀ t, g₁.tree? tree = some t → t.batches = 1)
      (after : Quiet tree (g₁.endBatch tree) g)

/-- A quiet step leaves the proof of the tree as it is. -/
theorem Quiet.bracketed (hfg : Quiet tree f g) : Bracketed tree f g :=
  .still (fun t ht => ⟨t, hfg.same t ht, rfl⟩) hfg.silent

theorem Bracketed.quiet (hfg : Bracketed tree f g) (hgh : Quiet tree g h) :
    Bracketed tree f h := by
  cases hfg with
  | still same silent =>
      exact .still (fun t ht => same t (hgh.same t ht)) (silent.trans hgh.silent)
  | batch before inside last after => exact .batch before inside last (after.trans hgh)

/-- A change of listeners is not a change of the proof. -/
theorem still_updateTree {change : Tree → Tree} (hid : ∀ t, (change t).id = t.id)
    (hproof : ∀ t, (change t).proof = t.proof) : Bracketed tree f (f.updateTree tree change) := by
  refine .still ?_ (Silent.of_eq rfl)
  intro t' ht'
  rw [tree?_updateTree hid, if_pos rfl] at ht'
  obtain ⟨t, ht, rfl⟩ := Option.map_eq_some_iff.mp ht'
  exact ⟨t, ht, hproof t⟩

section Free

variable (hfree : ∀ t, f.tree? tree = some t → t.batches = 0)
include hfree

/-- A run that keeps the tree, in a batch on a tree without open batches. -/
theorem bracketed_of_keeps {f₁ g₁ : Forest} (before : Quiet tree f f₁)
    (hrun : Keeps tree (f₁.beginBatch tree) g₁) (after : Quiet tree (g₁.endBatch tree) g) :
    Bracketed tree f g := by
  refine .batch before (hrun.inside (busy_beginBatch f₁ tree)) ?_ after
  intro t₁ ht₁
  obtain ⟨t₀, ht₀, hdepth⟩ := hrun.depth t₁ ht₁
  obtain ⟨t, ht, rfl⟩ := tree?_opened ht₀
  rw [hdepth]
  show t.batches + 1 = 1
  rw [hfree t (before.same t ht)]

/-- An operation on the tree is bracketed by its own batch. -/
theorem Batched.bracketed (hrun : Batched n f g) (hf : tree.number < f.nextTree)
    (hon : f.treeOf n = .ok tree) : Bracketed tree f g := by
  rcases hrun with rfl | ⟨tree', g₁, htree, rfl, hkeeps⟩
  · exact (Quiet.refl hf).bracketed
  · obtain rfl : tree = tree' := Except.ok.inj (hon.symm.trans htree)
    have hrun := hkeeps tree hf
    refine bracketed_of_keeps hfree (Quiet.refl hf) hrun (Quiet.refl ?_)
    rw [nextTree_endBatch]
    exact hrun.issued

/-- A graft seen from the tree that gives its proof away: the batch on it is
    inside the batch on the other. -/
theorem graft_bracketed (hf : tree.number < f.nextTree) (n : NodeId) :
    Bracketed tree f (f.graft n tree).2 := by
  rw [graft]
  split
  · exact (Quiet.refl hf).bracketed
  · exact (Quiet.refl hf).bracketed
  · rename_i t target donor _ _
    split
    · exact (Quiet.refl hf).bracketed
    · rename_i root rule skipped children _
      split
      · rename_i hcond
        simp only [Bool.and_eq_true, decide_eq_true_eq] at hcond
        have hne : tree ≠ t.id := Ne.symm hcond.1.2
        have hrun := keeps_graft (f := (f.beginBatch t.id).beginBatch tree) hf t.id tree n root.id
          rule skipped children
        -- the inner batch is on `tree`, inside one on the other tree
        refine bracketed_of_keeps hfree (quiet_beginBatch hf hne) hrun (quiet_endBatch ?_ hne)
        rw [nextTree_endBatch]
        exact hrun.issued
      · exact (Quiet.refl hf).bracketed

/-- Each operation on the tree is bracketed. -/
theorem bracketed_of_on (op : Op) (hf : tree.number < f.nextTree) (hon : op.On f tree) :
    Bracketed tree f (op.run f) := by
  cases op with
  | createTree sequent origin => exact hon.elim
  | removeTree other => exact (quiet_removeTree hf other).bracketed
  | copySubtree node => exact (quiet_copySubtree hf node).bracketed
  | applyRule node rule => exact (applyRule_batched f node rule).bracketed hfree hf hon
  | applyReasoner node reasoner input monitor =>
      exact (applyReasoner_batched f node reasoner input monitor).bracketed hfree hf hon
  | pruneChildren node => exact (pruneChildren_batched f node).bracketed hfree hf hon
  | pruneAndDiscard node =>
      obtain ⟨trees, hrun⟩ := pruneAndDiscard_forest f node
      have hprune := pruneChildren_batched f node
      rw [Op.run, hrun]
      exact (hprune.bracketed hfree hf hon).quiet (quiet_removeTrees (hprune.keeps hf).issued trees)
  | setComment node comment => exact (setComment_batched f node comment).bracketed hfree hf hon
  | graft node source =>
      -- as the node's tree the outer batch covers it, as the source the inner one
      rcases hon with hon | rfl
      · exact (graft_batched f node source).bracketed hfree hf hon
      · exact graft_bracketed hfree hf node
  | reuse node skeleton => exact (reuse_batched f node skeleton).bracketed hfree hf hon
  | rebuild node skeleton registry monitor config =>
      exact (rebuild_batched f node skeleton registry monitor config).bracketed hfree hf hon
  | addListener other =>
      cases hon
      rw [Op.run, addListener]
      split
      · exact (Quiet.refl hf).bracketed
      · refine still_updateTree ?_ ?_
        all_goals exact fun _ => rfl
  | removeListener other listener =>
      cases hon
      rw [Op.run, removeListener]
      split
      · exact (Quiet.refl hf).bracketed
      · refine still_updateTree ?_ ?_
        all_goals exact fun _ => rfl
  | beginBatch other => exact hon.elim
  | endBatch other => exact hon.elim

/-- A session is bracketed, be it one operation or a whole batch. -/
theorem Session.bracketed (hs : Session tree f g) (hf : tree.number < f.nextTree) :
    Bracketed tree f g := by
  cases hs with
  | single op on _ => exact bracketed_of_on hfree op hf on
  | batch during last =>
      have hinside := (during.inside hf (busy_beginBatch f tree)).1
      refine .batch (Quiet.refl hf) hinside last (Quiet.refl ?_)
      rw [nextTree_endBatch]
      exact hinside.issued

end Free

end Forest

end SequentProver
