import SequentProver.Proofs.SlotAccount

/-! # The history of slots

    A slot that is given back goes on to its next generation, and generations
    only grow.  So the handles handed out in the past are those in use and
    those whose slot has gone on, and the next one is neither.

    Route:
    1. `Spent`: the slot of a handle has gone on, and will not come back;
    2. `Served`: requests for slots in a row, with the handles handed out;
    3. `Accounts`: all handles handed out so far, each once, and that requests
       keep the account;
    4. what opening, copying and discarding nodes requests. -/

namespace SequentProver.Slots

variable {s s' s'' : Slots} {id : NodeId} {held held' held'' issued issued' log : List NodeId}

/-! ## Spent handles -/

/-- The slot of the handle has gone on to a later generation. -/
def Spent (s : Slots) (id : NodeId) : Prop :=
  ∃ generation, s.generations[id.index]? = some generation ∧ id.generation < generation

/-- A spent handle stays spent when a slot is handed out. -/
theorem Spent.alloc (h : s.Spent id) : s.alloc.2.Spent id := by
  obtain ⟨generation, hcurrent, hlt⟩ := h
  refine ⟨generation, ?_, hlt⟩
  rw [Slots.alloc]
  split
  · exact hcurrent
  · show (s.generations ++ [0])[id.index]? = some generation
    rw [List.getElem?_append_left (List.getElem?_eq_some_iff.mp hcurrent).1]
    exact hcurrent

theorem Spent.release (h : s.Spent id) (other : NodeId) : (s.release other).Spent id := by
  obtain ⟨generation, hcurrent, hlt⟩ := h
  by_cases hindex : other.index = id.index
  · refine ⟨generation + 1, ?_, Nat.lt_succ_of_lt hlt⟩
    show (s.generations.modify other.index (· + 1))[id.index]? = some (generation + 1)
    rw [hindex, List.getElem?_modify_eq, hcurrent]
    rfl
  · refine ⟨generation, ?_, hlt⟩
    show (s.generations.modify other.index (· + 1))[id.index]? = some generation
    rw [List.getElem?_modify_ne _ _ hindex]
    exact hcurrent

/-- A handle in use is current. -/
theorem Holds.not_spent (h : s.Holds held) (hid : id ∈ held) : ¬ s.Spent id := by
  rintro ⟨generation, hcurrent, hlt⟩
  rw [h.current id hid] at hcurrent
  cases hcurrent
  exact Nat.lt_irrefl _ hlt

/-- A handle handed out was never given back. -/
theorem Holds.alloc_not_spent (h : s.Holds held) : ¬ s.Spent s.alloc.1 := fun hspent =>
  h.alloc.not_spent List.mem_cons_self hspent.alloc

/-- What is handed out was not in use. -/
theorem Holds.alloc_not_held (h : s.Holds held) : s.alloc.1 ∉ held :=
  (List.nodup_cons.mp h.alloc.nodup).1

/-- A handle that is given back is spent. -/
theorem Holds.spent_release (h : s.Holds held) (hid : id ∈ held) : (s.release id).Spent id := by
  refine ⟨id.generation + 1, ?_, Nat.lt_succ_self _⟩
  show (s.generations.modify id.index (· + 1))[id.index]? = some (id.generation + 1)
  rw [List.getElem?_modify_eq, h.current id hid]
  rfl

/-- The slots say which handles are in use. -/
theorem Holds.unique (h : s.Holds held) (h' : s.Holds held') : held.Perm held' := by
  have hsub : ∀ {ids ids' : List NodeId}, s.Holds ids → s.Holds ids' → ∀ id ∈ ids, id ∈ ids' := by
    intro ids ids' hids hids' id hid
    have hlt := (List.getElem?_eq_some_iff.mp (hids.current id hid)).1
    obtain ⟨id', hid', hindex⟩ := (hids'.covered id.index hlt).resolve_left (hids.not_free id hid)
    -- one slot, and in each list its current generation
    have hgeneration : some id'.generation = some id.generation := by
      rw [← hids'.current id' hid', hindex, hids.current id hid]
    obtain ⟨index, generation⟩ := id
    cases id'
    cases hindex
    cases hgeneration
    exact hid'
  rw [List.perm_ext_iff_of_nodup h.nodup h'.nodup]
  exact fun id => ⟨hsub h h' id, hsub h' h id⟩

/-! ## Requests in a row -/

/-- Requests lead from `s` with the handles `held` in use to `s'` with `held'`,
    and `issued` are the handles handed out, in their order.  Only a handle in
    use is given back. -/
inductive Served : Slots → List NodeId → List NodeId → Slots → List NodeId → Prop
  | done {s : Slots} {held held' : List NodeId} (perm : held.Perm held') :
      Served s held [] s held'
  | handOut {s s' : Slots} {held held' issued : List NodeId}
      (rest : Served s.alloc.2 (s.alloc.1 :: held) issued s' held') :
      Served s held (s.alloc.1 :: issued) s' held'
  | giveBack {s s' : Slots} {held held' others issued : List NodeId} (id : NodeId)
      (perm : held.Perm (id :: others)) (rest : Served (s.release id) others issued s' held') :
      Served s held issued s' held'

/-- The order in which handles are listed does not matter. -/
theorem Served.perm_left (h : Served s held issued s' held') (hperm : held''.Perm held) :
    Served s held'' issued s' held' := by
  induction h generalizing held'' with
  | done perm => exact .done (hperm.trans perm)
  | handOut _ ih => exact .handOut (ih (hperm.cons _))
  | giveBack id perm rest _ => exact .giveBack id (hperm.trans perm) rest

theorem Served.trans (h : Served s held issued s' held')
    (h' : Served s' held' issued' s'' held'') :
    Served s held (issued ++ issued') s'' held'' := by
  induction h with
  | done perm => exact h'.perm_left perm
  | handOut _ ih => exact .handOut (ih h')
  | giveBack id perm _ ih => exact .giveBack id perm (ih h')

/-- Requests keep the account of slots. -/
theorem Served.holds (h : Served s held issued s' held') (hs : s.Holds held) : s'.Holds held' := by
  induction h with
  | done perm => exact hs.perm perm
  | handOut _ ih => exact ih hs.alloc
  | giveBack id perm _ ih => exact ih (hs.perm perm).release

/-- What is in use in the end is known from the slots. -/
theorem Served.perm_right (h : Served s held issued s' held') (hs : s.Holds held)
    (hs' : s'.Holds held'') : Served s held issued s' held'' := by
  have hdone : Served s' held' [] s' held'' := .done ((h.holds hs).unique hs')
  have hboth := h.trans hdone
  rwa [List.append_nil] at hboth

/-- Requests leave spent handles spent. -/
theorem Served.spent (h : Served s held issued s' held') (hid : s.Spent id) : s'.Spent id := by
  induction h with
  | done _ => exact hid
  | handOut _ ih => exact ih hid.alloc
  | giveBack other _ _ ih => exact ih (hid.release other)

/-! ## The account of the past -/

/-- `log` are the handles handed out so far: each once, and each is in use or
    spent. -/
structure Accounts (s : Slots) (held log : List NodeId) : Prop where
  holds : s.Holds held
  nodup : log.Nodup
  held_mem : ∀ id ∈ held, id ∈ log
  past : ∀ id ∈ log, id ∈ held ∨ s.Spent id

/-- At the start nothing was handed out. -/
theorem accounts_empty : Accounts {} [] [] where
  holds := holds_empty
  nodup := List.nodup_nil
  held_mem _ h := nomatch h
  past _ h := nomatch h

/-- A handle that is handed out is not in the account yet. -/
theorem Accounts.alloc (h : s.Accounts held log) :
    s.alloc.2.Accounts (s.alloc.1 :: held) (log ++ [s.alloc.1]) where
  holds := h.holds.alloc
  nodup := by
    rw [← List.concat_eq_append, List.nodup_concat]
    refine ⟨fun hmem => ?_, h.nodup⟩
    rcases h.past _ hmem with hheld | hspent
    · exact h.holds.alloc_not_held hheld
    · exact h.holds.alloc_not_spent hspent
  held_mem := by
    refine List.forall_mem_cons.mpr ⟨List.mem_append_right _ List.mem_cons_self, ?_⟩
    exact fun id hid => List.mem_append_left _ (h.held_mem id hid)
  past id hid := by
    rcases List.mem_append.mp hid with hid | hid
    · exact (h.past id hid).imp (List.mem_cons_of_mem _) Spent.alloc
    · rw [List.mem_singleton.mp hid]
      exact Or.inl List.mem_cons_self

/-- Giving back a handle in use keeps the account. -/
theorem Accounts.release {others : List NodeId} (h : s.Accounts held log)
    (perm : held.Perm (id :: others)) : (s.release id).Accounts others log where
  holds := (h.holds.perm perm).release
  nodup := h.nodup
  held_mem a ha := h.held_mem a (perm.mem_iff.mpr (List.mem_cons_of_mem _ ha))
  past a ha := by
    rcases h.past a ha with hheld | hspent
    · rcases List.mem_cons.mp (perm.mem_iff.mp hheld) with rfl | hother
      · exact Or.inr (h.holds.spent_release hheld)
      · exact Or.inl hother
    · exact Or.inr (hspent.release id)

/-- Requests keep the account: what they hand out is new. -/
theorem Accounts.served (h : s.Accounts held log) (hs : Served s held issued s' held') :
    s'.Accounts held' (log ++ issued) := by
  induction hs generalizing log with
  | done perm =>
      rw [List.append_nil]
      exact ⟨h.holds.perm perm, h.nodup, fun id hid => h.held_mem id (perm.mem_iff.mpr hid),
        fun id hid => (h.past id hid).imp_left perm.mem_iff.mp⟩
  | handOut _ ih =>
      have hrest := ih h.alloc
      rwa [List.append_assoc] at hrest
  | giveBack _ perm _ ih => exact ih (h.release perm)

/-! ## Whole trees -/

/-- Opening nodes asks for one slot after the other. -/
theorem served_openNodes (s : Slots) (held : List NodeId) (sequents : List Sequent) :
    ∃ held', Served s held ((s.openNodes sequents).1.flatMap ProofTree.ids)
      (s.openNodes sequents).2 held' := by
  induction sequents generalizing s held with
  | nil => exact ⟨held, .done (.refl _)⟩
  | cons sequent rest ih =>
      obtain ⟨held', hrest⟩ := ih s.alloc.2 (s.alloc.1 :: held)
      exact ⟨held', .handOut hrest⟩

theorem served_copy (s : Slots) (held : List NodeId) (t : ProofTree) :
    ∃ held', Served s held (s.copy t).1.ids (s.copy t).2 held' := by
  induction t generalizing s held with
  | openNode node => exact ⟨_, .handOut (.done (.refl _))⟩
  | applied node rule skipped children ih =>
      have hamong : ∀ s held, ∃ held', Served s held
          ((s.copyAmong children).1.flatMap ProofTree.ids) (s.copyAmong children).2 held' := by
        induction children with
        | nil => exact fun s held => ⟨held, .done (.refl _)⟩
        | cons c rest ihrest =>
            intro s held
            obtain ⟨between, hc⟩ := ih c List.mem_cons_self s held
            obtain ⟨held', hrest⟩ :=
              ihrest (fun d hd => ih d (List.mem_cons_of_mem _ hd)) (s.copy c).2 between
            exact ⟨held', hc.trans hrest⟩
      obtain ⟨held', hchildren⟩ := hamong s.alloc.2 (s.alloc.1 :: held)
      refine ⟨held', ?_⟩
      rw [copy, ProofTree.ids, ProofTree.idsAmong_eq]
      exact .handOut hchildren

/-- The last of the list is given back first. -/
theorem served_releaseAll (s : Slots) (gone others : List NodeId) :
    Served s (gone ++ others) [] (s.releaseAll gone) others := by
  induction gone generalizing others with
  | nil => exact .done (.refl _)
  | cons id rest ih =>
      have hrest := (ih (id :: others)).perm_left List.perm_middle.symm
      exact hrest.trans (.giveBack id (.refl _) (.done (.refl _)))

end SequentProver.Slots
