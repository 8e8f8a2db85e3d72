import SequentProver.Proofs.Batches

/-! # Deltas lose no change

    When a session on a tree ends, its listeners hear a delta, unless nothing
    was recorded.  The delta explains what became of every node that the tree
    has then: what differs on the node from the start of the session is flagged
    on it, or a node above it is flagged for its children.  In between, nodes
    may have left the tree, changed elsewhere and come back at another place.

    The account of `ChangeAccount` is the invariant: the tree accounts for its
    start when the batch opens, every step inside the batch keeps the account,
    and the flags of the delta are those of the account. -/

namespace SequentProver

open ProofTree (Face Explained Accounted)

/-! ## The account through a batch -/

namespace Tree

variable {old : NodeId → Option Face} {t t' : Tree}

/-- One step inside a batch keeps the account. -/
theorem Step.accounts (step : Step t t') (h : t.Accounts old) : t'.Accounts old := by
  cases step with
  | edit n made => exact h.editNode made n
  | attend listeners nextListener => exact h
  | opened => exact h
  | closed nested =>
      rw [Accounts, records_closed nested]
      exact h

theorem Steps.accounts (steps : t.Steps t') (h : t.Accounts old) : t'.Accounts old := by
  induction steps with
  | refl => exact h
  | tail _ step ih => exact step.accounts ih

/-- What is told at the end of the outermost batch explains what the account
    is about. -/
theorem told_explains {p : ProofTree} (hids : t.proof.ids.Nodup) (hlast : t.batches = 1)
    (h : t.Accounts p.face?) :
    (t.told = [] ∧ ∀ n ∈ t.proof.ids, t.proof.face? n = p.face? n) ∨
      ∃ delta, t.told = t.listeners.map (fun l => ⟨l, delta⟩) ∧
        ∀ n ∈ t.proof.ids, Explained p t.proof delta.flagsOf n := by
  rw [told, if_pos (Nat.le_of_eq hlast)]
  cases hdelta : t.delta? with
  | none =>
      refine .inl ⟨rfl, ?_⟩
      intro n hn
      exact (Accounted.explained hids h hn).face_eq
        (fun m hm => recordedFlags_of_no_delta hdelta hm) hn
  | some delta =>
      refine .inr ⟨delta, rfl, ?_⟩
      intro n hn
      exact (Accounted.explained hids h hn).congr (fun m hm => flagsOf_delta? hdelta hm) hn

end Tree

namespace Forest

variable {f g : Forest} {tree : TreeId} {t t' : Tree}

/-! ## What is heard of a tree -/

/-- The notices that are about a tree. -/
def about (tree : TreeId) (notices : List Notice) : List Notice :=
  notices.filter fun notice => notice.delta.tree = tree

/-- Notices about a tree, one list after the other. -/
theorem about_append (tree : TreeId) (new more : List Notice) :
    about tree (new ++ more) = about tree new ++ about tree more :=
  List.filter_append new more

/-- Notices about other trees are not about this one. -/
theorem about_eq_nil {new : List Notice} (h : ∀ notice ∈ new, notice.delta.tree ≠ tree) :
    about tree new = [] := by
  rw [about, List.filter_eq_nil_iff]
  intro notice hmem
  rw [decide_eq_true_eq]
  exact h notice hmem

/-- What a tree tells is about itself. -/
theorem about_told (hid : t.id = tree) : about tree t.told = t.told := by
  rw [about, List.filter_eq_self]
  intro notice hmem
  rw [decide_eq_true_eq, Tree.tree_of_told notice hmem, hid]

/-- The notices of a session are those of its outermost batch. -/
theorem about_batch {f₁ g₁ : Forest} (before : Quiet tree f f₁)
    (inside : Inside tree (f₁.beginBatch tree) g₁) (after : Quiet tree (g₁.endBatch tree) g)
    (hfound : g₁.tree? tree = some t) :
    ∃ new, g.notices = f.notices ++ new ∧ about tree new = t.told := by
  obtain ⟨early, hearly, habout₁⟩ := before.silent
  obtain ⟨amid, hamid, habout₂⟩ := inside.silent
  obtain ⟨late, hlate, habout₃⟩ := after.silent
  have hid : t.id = tree := by simpa using List.find?_some hfound
  rw [notices_endBatch, hfound, Option.map_some, Option.getD_some, hamid] at hlate
  refine ⟨early ++ amid ++ t.told ++ late, ?_, ?_⟩
  · calc g.notices = f₁.notices ++ amid ++ t.told ++ late := hlate
      _ = f.notices ++ (early ++ amid ++ t.told ++ late) := by
        rw [hearly]
        simp only [List.append_assoc]
  · rw [about_append, about_append, about_append, about_eq_nil habout₁, about_eq_nil habout₂,
      about_eq_nil habout₃, about_told hid, List.append_nil, List.nil_append, List.nil_append]

/-- The tree at the end of the batch accounts for the tree at its start. -/
theorem accounts_of_inside {f₁ g₁ : Forest} {t₁ : Tree} (before : Quiet tree f f₁)
    (inside : Inside tree (f₁.beginBatch tree) g₁) (ht : f.tree? tree = some t)
    (hids : t.proof.ids.Nodup) (ht₁ : g₁.tree? tree = some t₁) : t₁.Accounts t.proof.face? := by
  obtain ⟨t₀, ht₀, hsteps⟩ := inside.steps t₁ ht₁
  obtain ⟨u, hu, rfl⟩ := tree?_opened ht₀
  obtain rfl : t = u := Option.some.inj (ht.symm.trans (before.same u hu))
  refine Tree.Steps.accounts hsteps ?_
  exact Accounted.start hids _

/-- Deltas lose no change.  Take an outermost batch on a tree, or an operation
    on it outside of batches.  Of the tree its listeners hear nothing, and all
    nodes are as they were; or each hears one delta, the same for all, that
    explains what became of every node of the tree. -/
theorem session_explained (hf : f.Reachable) (ht : f.tree? tree = some t) (hfree : t.batches = 0)
    (hs : Session tree f g) (ht' : g.tree? tree = some t') :
    ∃ new, g.notices = f.notices ++ new ∧
      ((about tree new = [] ∧ ∀ n ∈ t'.proof.ids, t'.proof.face? n = t.proof.face? n) ∨
        ∃ delta, about tree new = t'.listeners.map (fun l => ⟨l, delta⟩) ∧
          ∀ n ∈ t'.proof.ids, Explained t.proof t'.proof delta.flagsOf n) := by
  have hlive := (tree?_eq_some hf.wf).mp ht
  have hids := nodup_ids hf.wf hlive.1
  have hids' := nodup_ids (hs.reachable hf).wf ((tree?_eq_some (hs.reachable hf).wf).mp ht').1
  have hissued : tree.number < f.nextTree :=
    hlive.2 ▸ hf.wf.tree_lt (t.id, t.proof) (List.mem_map.mpr ⟨t, hlive.1, rfl⟩)
  have hdepth : ∀ u, f.tree? tree = some u → u.batches = 0 := by
    intro u hu
    rwa [Option.some.inj (hu.symm.trans ht)]
  cases hs.bracketed hdepth hissued with
  | still same silent =>
      obtain ⟨new, hnew, habout⟩ := silent
      obtain ⟨u, hu, hproof⟩ := same t' ht'
      obtain rfl : t = u := Option.some.inj (ht.symm.trans hu)
      refine ⟨new, hnew, .inl ⟨about_eq_nil habout, ?_⟩⟩
      intro n _
      rw [hproof]
  | batch before inside last after =>
      -- the tree at the end is the one in the batch, closed
      obtain ⟨t₁, ht₁, rfl⟩ := tree?_closed (after.same t' ht')
      obtain ⟨new, hnew, habout⟩ := about_batch before inside after ht₁
      refine ⟨new, hnew, ?_⟩
      rw [habout]
      exact t₁.told_explains hids' (last t₁ ht₁) (accounts_of_inside before inside ht hids ht₁)

/-- A proof of two steps whose tree has a listener. -/
def listened : Forest :=
  let f := (Forest.empty.createTree ⟨.empty, .empty, .bottom⟩ none).2
  let f := ((f.applyRule ⟨0, 0⟩ waiving).2.applyRule ⟨1, 0⟩ waiving).2
  (f.addListener ⟨0⟩).2

/-- The same after a batch: the steps are pruned off, the last node gets a
    comment while it is in another tree, and comes back below a new parent. -/
def rejoined : Forest :=
  let f := Op.run (listened.beginBatch ⟨0⟩) (.pruneChildren ⟨0, 0⟩)
  let f := Op.run (Op.run f (.setComment ⟨2, 0⟩ "aside")) (.applyRule ⟨0, 0⟩ waiving)
  (Op.run f (.graft ⟨3, 0⟩ ⟨1⟩)).endBatch ⟨0⟩

theorem listened_reachable : listened.Reachable := by
  have hplain : Sequent.WellTyped ⟨.empty, .empty, .bottom⟩ := by decide +kernel
  have hcreated : Forest.Reachable _ := .step (.createTree _ none) .empty hplain
  have happlied : Forest.Reachable _ := .step (.applyRule ⟨1, 0⟩ waiving)
    (.step (.applyRule ⟨0, 0⟩ waiving) hcreated trivial) trivial
  exact .step (.addListener ⟨0⟩) happlied trivial

/-- The batch of the example is a session. -/
theorem rejoined_session : Session ⟨0⟩ listened rejoined := by
  have hopen : ∀ {f : Forest}, (f.tree? ⟨0⟩).any (fun t => t.batches = 1) = true →
      ∀ t, f.tree? ⟨0⟩ = some t → t.batches = 1 := by
    intro f hany t ht
    rw [ht] at hany
    exact of_decide_eq_true hany
  have hbusy : ∀ {f : Forest}, (f.tree? ⟨0⟩).any (fun t => t.batches = 1) = true →
      Busy ⟨0⟩ f := by
    intro f hany t ht
    rw [hopen hany t ht]
    exact Nat.one_pos
  rw [rejoined]
  refine .batch (.step _ (.step _ (.step _ (.step _ .start trivial ?_) trivial ?_) trivial ?_)
    trivial ?_) (hopen ?_)
  · exact hbusy (by decide +kernel)
  · exact hbusy (by decide +kernel)
  · exact hbusy (by decide +kernel)
  · exact hbusy (by decide +kernel)
  · decide +kernel

theorem rejoined_explained : ∃ t t', listened.tree? ⟨0⟩ = some t ∧ rejoined.tree? ⟨0⟩ = some t' ∧
    t.proof.parent? ⟨2, 0⟩ = some ⟨1, 0⟩ ∧ t'.proof.parent? ⟨2, 0⟩ = some ⟨3, 0⟩ ∧
    t'.listeners = [0] ∧
    ∃ new, rejoined.notices = listened.notices ++ new ∧
      ((about ⟨0⟩ new = [] ∧ ∀ n ∈ t'.proof.ids, t'.proof.face? n = t.proof.face? n) ∨
        ∃ delta, about ⟨0⟩ new = t'.listeners.map (fun l => ⟨l, delta⟩) ∧
          ∀ n ∈ t'.proof.ids, Explained t.proof t'.proof delta.flagsOf n) := by
  have hstart : (listened.tree? ⟨0⟩).any
      (fun t => t.batches = 0 ∧ t.proof.parent? ⟨2, 0⟩ = some ⟨1, 0⟩) = true := by decide +kernel
  have hend : (rejoined.tree? ⟨0⟩).any
      (fun t => t.proof.parent? ⟨2, 0⟩ = some ⟨3, 0⟩ ∧ t.listeners = [0]) = true := by
    decide +kernel
  obtain ⟨t, ht, hstart⟩ := (Option.any_eq_true _ _).mp hstart
  obtain ⟨t', ht', hend⟩ := (Option.any_eq_true _ _).mp hend
  obtain ⟨hfree, hparent⟩ := of_decide_eq_true hstart
  obtain ⟨hparent', hlisteners⟩ := of_decide_eq_true hend
  exact ⟨t, t', ht, ht', hparent, hparent', hlisteners,
    session_explained listened_reachable ht hfree rejoined_session ht'⟩

end Forest

end SequentProver
