import Mathlib.Data.List.Nodup
import Mathlib.Data.List.Perm.Basic
import SequentProver.Forest.ProofTree

/-! # The shape of proof trees

    The traversals of a proof tree are written as mutual recursions over a
    tree and a list of trees.  Here they become list functions over the
    children, so that one induction serves them all.

    Route:
    1. induction on trees and skeletons, and traversals over the children;
    2. `Everywhere`, what holds at every node;
    3. finding a node. -/

namespace SequentProver

/-! ## Induction -/

namespace ProofTree

/-- Induction on a proof: a node may use what holds of the subtrees below
    it. -/
@[elab_as_elim, induction_eliminator]
theorem induct {motive : ProofTree → Prop}
    (openNode : ∀ node, motive (.openNode node))
    (applied : ∀ node rule skipped children, (∀ c ∈ children, motive c) →
      motive (.applied node rule skipped children)) :
    ∀ t, motive t
  | .openNode node => openNode node
  | .applied node rule skipped children =>
      applied node rule skipped children fun c _ => induct openNode applied c

/-- The same for what is said of open and applied nodes alike. -/
@[elab_as_elim]
theorem children_induct {motive : ProofTree → Prop}
    (step : ∀ t : ProofTree, (∀ c ∈ t.children, motive c) → motive t) (t : ProofTree) :
    motive t := by
  induction t with
  | openNode node => exact step _ fun c hc => nomatch hc
  | applied node rule skipped children ih => exact step _ ih

end ProofTree

/-- Induction on a skeleton. -/
@[elab_as_elim, induction_eliminator]
theorem Skeleton.induct {motive : Skeleton → Prop}
    (mk : ∀ comment rule children, (∀ c ∈ children, motive c) →
      motive (.mk comment rule children)) :
    ∀ s, motive s
  | .mk comment rule children => mk comment rule children fun c _ => induct mk c

namespace ProofTree

variable {t p : ProofTree} {n : NodeId}

/-! ## Traversals over the children -/

/-- Handles of siblings, tree by tree. -/
@[simp]
theorem idsAmong_eq (ts : List ProofTree) : idsAmong ts = ts.flatMap ids := by
  induction ts with
  | nil => rfl
  | cons t rest ih => rw [idsAmong, ih, List.flatMap_cons]

@[simp]
theorem idsUpwardAmong_eq (ts : List ProofTree) : idsUpwardAmong ts = ts.flatMap idsUpward := by
  induction ts with
  | nil => rfl
  | cons t rest ih => rw [idsUpwardAmong, ih, List.flatMap_cons]

/-- Looking for a node among siblings, one by one. -/
@[simp]
theorem findAmong?_eq (n : NodeId) (ts : List ProofTree) :
    findAmong? n ts = ts.findSome? (find? n) := by
  induction ts with
  | nil => rfl
  | cons t rest ih =>
      rw [findAmong?, ih, List.findSome?_cons]
      cases find? n t with
      | none => rfl
      | some found => rfl

/-- Open nodes of siblings, tree by tree. -/
@[simp]
theorem openNodesAmong_eq (ts : List ProofTree) : openNodesAmong ts = ts.flatMap openNodes := by
  induction ts with
  | nil => rfl
  | cons t rest ih => rw [openNodesAmong, ih, List.flatMap_cons]

@[simp]
theorem dependenciesAmong_eq (ts : List ProofTree) :
    dependenciesAmong ts = ts.map fun t => (t.dependencies, t.sequent.env) := by
  induction ts with
  | nil => rfl
  | cons t rest ih => rw [dependenciesAmong, ih, List.map_cons]

@[simp]
theorem skeletonAmong_eq (ts : List ProofTree) : skeletonAmong ts = ts.map skeleton := by
  induction ts with
  | nil => rfl
  | cons t rest ih => rw [skeletonAmong, ih, List.map_cons]

/-- The handle at the top, and those below it. -/
theorem ids_eq (t : ProofTree) : t.ids = t.id :: t.children.flatMap ids := by
  cases t with
  | openNode node => rfl
  | applied node rule skipped children => rw [ids, idsAmong_eq]; rfl

/-- A node is the top, or it is below a child. -/
theorem find?_eq (n : NodeId) (t : ProofTree) :
    t.find? n = if t.id = n then some t else t.children.findSome? (find? n) := by
  cases t with
  | openNode node => rfl
  | applied node rule skipped children => rw [find?, findAmong?_eq]; rfl

/-- Children first or parents first, the nodes are the same. -/
theorem idsUpward_perm (t : ProofTree) : t.idsUpward.Perm t.ids := by
  induction t with
  | openNode node => exact .refl _
  | applied node rule skipped children ih =>
      rw [idsUpward, ids, idsUpwardAmong_eq, idsAmong_eq]
      refine (List.perm_append_singleton _ _).trans (.cons _ ?_)
      exact List.Perm.flatMap_left _ ih

/-- The handle at the top is in the tree. -/
theorem id_mem_ids (t : ProofTree) : t.id ∈ t.ids := by
  rw [ids_eq]
  exact List.mem_cons_self

/-! ## Changing the node at the top -/

section MapNode

variable (f : Node → Node) (t : ProofTree)

@[simp]
theorem node_mapNode : (t.mapNode f).node = f t.node := by
  cases t <;> rfl

@[simp]
theorem children_mapNode : (t.mapNode f).children = t.children := by
  cases t <;> rfl

@[simp]
theorem rule?_mapNode : (t.mapNode f).rule? = t.rule? := by
  cases t <;> rfl

@[simp]
theorem skipped_mapNode : (t.mapNode f).skipped = t.skipped := by
  cases t <;> rfl

end MapNode

/-! ## What holds at every node -/

/-- `P` holds of the subtree at every node. -/
inductive Everywhere (P : ProofTree → Prop) : ProofTree → Prop
  | mk {t : ProofTree} (top : P t) (below : ∀ c ∈ t.children, Everywhere P c) : Everywhere P t

namespace Everywhere

variable {P : ProofTree → Prop}

/-- What holds everywhere holds at the top. -/
theorem top (h : Everywhere P t) : P t := by
  cases h with
  | mk top _ => exact top

theorem child (h : Everywhere P t) : ∀ c ∈ t.children, Everywhere P c := by
  cases h with
  | mk _ below => exact below

/-- Below an open node there is nothing. -/
theorem of_open {node : Node} (h : P (.openNode node)) : Everywhere P (.openNode node) :=
  .mk h fun _ hc => nomatch hc

/-- It holds of a subtree that is found by its handle. -/
theorem find? (h : Everywhere P t) (hfind : t.find? n = some p) : Everywhere P p := by
  induction h with
  | @mk t top below ih =>
      rw [find?_eq] at hfind
      split at hfind
      · cases hfind
        exact .mk top below
      · obtain ⟨c, hc, hfound⟩ := List.exists_of_findSome?_eq_some hfind
        exact ih c hc hfound

end Everywhere

/-! ## Finding a node -/

/-- What is found has the handle that was looked for. -/
theorem id_of_find? (h : t.find? n = some p) : p.id = n := by
  induction t using children_induct with
  | step t ih =>
      rw [find?_eq] at h
      split at h
      · cases h
        assumption
      · obtain ⟨c, hc, hfound⟩ := List.exists_of_findSome?_eq_some h
        exact ih c hc hfound

/-- A node is found exactly if its handle is in the tree. -/
theorem isSome_find? : (t.find? n).isSome = true ↔ n ∈ t.ids := by
  induction t using children_induct with
  | step t ih =>
      rw [find?_eq, ids_eq, List.mem_cons]
      by_cases hn : t.id = n
      · rw [if_pos hn]
        exact ⟨fun _ => Or.inl hn.symm, fun _ => rfl⟩
      · rw [if_neg hn, List.findSome?_isSome_iff, List.mem_flatMap]
        constructor
        · rintro ⟨c, hc, hfound⟩
          exact Or.inr ⟨c, hc, (ih c hc).mp hfound⟩
        · rintro (h | ⟨c, hc, hmem⟩)
          · exact absurd h.symm hn
          · exact ⟨c, hc, (ih c hc).mpr hmem⟩

/-- What is not found is not there. -/
theorem find?_eq_none : t.find? n = none ↔ n ∉ t.ids := by
  rw [← isSome_find?, Option.not_isSome_iff_eq_none]

theorem mem_ids_of_find? (h : t.find? n = some p) : n ∈ t.ids := by
  rw [← isSome_find?, h]
  rfl

/-- Nothing is found among trees without the handle. -/
theorem findSome?_eq_none {ts : List ProofTree} (h : n ∉ ts.flatMap ids) :
    ts.findSome? (ProofTree.find? n) = none := by
  rw [List.findSome?_eq_none_iff]
  intro t ht
  rw [find?_eq_none]
  exact fun hmem => h (List.mem_flatMap.mpr ⟨t, ht, hmem⟩)

/-- A node is found through the child that has it. -/
theorem find?_of_child {c : ProofTree} (hids : t.ids.Nodup) (hc : c ∈ t.children)
    (hfind : c.find? n = some p) : t.find? n = some p := by
  obtain ⟨before, after, hsplit⟩ := List.append_of_mem hc
  rw [ids_eq, List.nodup_cons, hsplit, List.flatMap_append, List.flatMap_cons,
    List.nodup_append] at hids
  obtain ⟨htop, -, -, hbefore⟩ := hids
  have hmem : n ∈ c.ids ++ after.flatMap ids := List.mem_append_left _ (mem_ids_of_find? hfind)
  have hid : t.id ≠ n := fun h => htop (h ▸ List.mem_append_right _ hmem)
  have hnone := findSome?_eq_none fun h => hbefore n h n hmem rfl
  rw [find?_eq, if_neg hid, hsplit, List.findSome?_append, hnone, List.findSome?_cons, hfind]
  rfl

/-- In a child no handle is twice. -/
theorem nodup_ids_child {c : ProofTree} (hids : t.ids.Nodup) (hc : c ∈ t.children) :
    c.ids.Nodup := by
  rw [ids_eq, List.nodup_cons] at hids
  exact (List.nodup_flatMap.mp hids.2).1 c hc

/-- A node is found through any subtree that has it. -/
theorem find?_trans {m : NodeId} {q : ProofTree} (hids : t.ids.Nodup)
    (hp : t.find? n = some p) (hq : p.find? m = some q) : t.find? m = some q := by
  induction t using children_induct with
  | step t ih =>
      rw [find?_eq] at hp
      split at hp
      · cases hp
        exact hq
      · obtain ⟨c, hc, hfound⟩ := List.exists_of_findSome?_eq_some hp
        exact find?_of_child hids hc (ih c hc (nodup_ids_child hids hc) hfound)

/-- The top is found by its handle. -/
theorem find?_id (t : ProofTree) : t.find? t.id = some t := by
  rw [find?_eq, if_pos rfl]

/-- A child is found by its handle. -/
theorem find?_child {c : ProofTree} (hids : t.ids.Nodup) (hc : c ∈ t.children) :
    t.find? c.id = some c :=
  find?_of_child hids hc c.find?_id

/-- In a subtree no handle is twice. -/
theorem nodup_ids_find? (hids : t.ids.Nodup) (hfind : t.find? n = some p) : p.ids.Nodup := by
  induction t using children_induct with
  | step t ih =>
      rw [find?_eq] at hfind
      split at hfind
      · cases hfind
        exact hids
      · obtain ⟨c, hc, hfound⟩ := List.exists_of_findSome?_eq_some hfind
        exact ih c hc (nodup_ids_child hids hc) hfound

/-- What does not hold everywhere fails at some node. -/
theorem exists_find?_of_not_everywhere {P : ProofTree → Prop} (hids : t.ids.Nodup)
    (h : ¬ t.Everywhere P) : ∃ n p, t.find? n = some p ∧ ¬ P p := by
  induction t using children_induct with
  | step t ih =>
      by_cases htop : P t
      · have hbelow : ¬ ∀ c ∈ t.children, c.Everywhere P := fun hall => h (.mk htop hall)
        simp only [not_forall] at hbelow
        obtain ⟨c, hc, hnot⟩ := hbelow
        obtain ⟨n, p, hfind, hp⟩ := ih c hc (nodup_ids_child hids hc) hnot
        exact ⟨n, p, find?_of_child hids hc hfind, hp⟩
      · exact ⟨t.id, t, t.find?_id, htop⟩

/-- The open nodes are the nodes without a rule. -/
theorem mem_openNodes (hids : t.ids.Nodup) :
    n ∈ t.openNodes ↔ ∃ p, t.find? n = some p ∧ p.isOpen = true := by
  induction t with
  | openNode node =>
      rw [openNodes, List.mem_singleton]
      constructor
      · rintro rfl
        exact ⟨_, (ProofTree.openNode node).find?_id, rfl⟩
      · rintro ⟨p, hfind, -⟩
        have hmem := mem_ids_of_find? hfind
        rw [ids, List.mem_singleton] at hmem
        exact hmem
  | applied node rule skipped children ih =>
      rw [openNodes, openNodesAmong_eq, List.mem_flatMap]
      constructor
      · rintro ⟨c, hc, hmem⟩
        obtain ⟨p, hfind, hopen⟩ := (ih c hc (nodup_ids_child hids hc)).mp hmem
        exact ⟨p, find?_of_child hids hc hfind, hopen⟩
      · rintro ⟨p, hfind, hopen⟩
        rw [find?_eq] at hfind
        split at hfind
        -- the top has a rule, so what was found is below
        · cases hfind
          exact nomatch hopen
        · obtain ⟨c, hc, hfound⟩ := List.exists_of_findSome?_eq_some hfind
          exact ⟨c, hc, (ih c hc (nodup_ids_child hids hc)).mpr ⟨p, hfound, hopen⟩⟩

end ProofTree

end SequentProver
