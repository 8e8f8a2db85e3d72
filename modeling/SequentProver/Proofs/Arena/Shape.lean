import SequentProver.Proofs.Arena.Layout
import SequentProver.Proofs.DeltaLayout
import SequentProver.Proofs.Links

/-! # Deltas read off an arena

    When a batch ends, the recorded nodes are looked up one by one, the
    stored parents are climbed from each of them, and what was met is laid
    out from the root down.  In an arena that stores the tree this gives the
    delta of the tree.

    Route:
    1. the parents climbed from a node are the nodes above it;
    2. what the climbs from all records meet;
    3. laying it out. -/

namespace SequentProver.Arena

open ProofTree (Record isRecorded recordedFlags hasDelta)

variable {store : NodeId → Option NodeData} {tree : TreeId} {parent : Option NodeId}
  {t p : ProofTree} {n m : NodeId} {a : Arena} {records : List Record}

/-! ## Ancestors -/

/-- Of the children only one has a given node below it. -/
theorem child_eq {c d : ProofTree} (hids : t.ids.Nodup) (hc : c ∈ t.children)
    (hd : d ∈ t.children) (hn : n ∈ c.ids) (hn' : n ∈ d.ids) : c = d := by
  obtain ⟨i, hi⟩ := List.mem_iff_getElem?.mp hc
  obtain ⟨j, hj⟩ := List.mem_iff_getElem?.mp hd
  obtain rfl := ProofTree.child_unique hids hi hj hn hn'
  exact Option.some.inj (hi.symm.trans hj)

/-- Above a node below a child are the nodes above it there and the node at
    the top. -/
theorem above_child {c : ProofTree} (hids : t.ids.Nodup) (hc : c ∈ t.children) (hn : n ∈ c.ids) :
    t.Above m n ↔ c.Above m n ∨ m = t.id := by
  constructor
  · rintro ⟨p, hfind, d, hd, hbelow⟩
    rw [ProofTree.find?_eq] at hfind
    split at hfind
    · rename_i hid
      exact .inr hid.symm
    · obtain ⟨e, he, hfound⟩ := List.exists_of_findSome?_eq_some hfind
      have hmem : n ∈ e.ids := mem_ids_of_mem_find? (ProofTree.nodup_ids_child hids he) hfound
        (mem_ids_of_child hd hbelow)
      obtain rfl := child_eq hids hc he hn hmem
      exact .inl ⟨p, hfound, d, hd, hbelow⟩
  · rintro (⟨p, hfind, d, hd, hbelow⟩ | rfl)
    · exact ⟨p, ProofTree.find?_of_child hids hc hfind, d, hd, hbelow⟩
    · exact ⟨t, t.find?_id, c, hc, hn⟩

/-- Nothing is above the node at the top. -/
theorem not_above_id (hids : t.ids.Nodup) : ¬ t.Above m t.id := by
  rintro ⟨p, hfind, c, hc, hbelow⟩
  have htop := id_not_below hids
  rw [ProofTree.find?_eq] at hfind
  split at hfind
  · cases hfind
    exact htop (List.mem_flatMap.mpr ⟨c, hc, hbelow⟩)
  · obtain ⟨e, he, hfound⟩ := List.exists_of_findSome?_eq_some hfind
    have hmem := mem_ids_of_mem_find? (ProofTree.nodup_ids_child hids he) hfound
      (mem_ids_of_child hc hbelow)
    exact htop (List.mem_flatMap.mpr ⟨e, he, hmem⟩)

/-- Climbing from a node meets the nodes above it on the way to the top of a
    stored subtree, and goes on from there. -/
theorem ancestors_within (h : Stores a.data? tree parent t) (hids : t.ids.Nodup)
    (hn : n ∈ t.ids) :
    ∃ up used, (∀ m, m ∈ up ↔ t.Above m n) ∧ used < t.ids.length ∧
      ∀ turns, a.ancestors (turns + used) n = (a.ancestors turns t.id).map fun rest => up ++ rest := by
  -- upwards from the node: one turn for each step to a parent
  induction h with
  | @mk parent t top below ih =>
      rw [ProofTree.ids_eq, List.mem_cons, List.mem_flatMap] at hn
      rcases hn with rfl | ⟨c, hc, hmem⟩
      · refine ⟨[], 0, fun m => ?_, ?_, fun turns => ?_⟩
        · exact iff_of_false List.not_mem_nil (not_above_id hids)
        · rw [ProofTree.ids_eq]
          exact Nat.succ_pos _
        · exact Option.map_id'.symm
      · obtain ⟨up, used, hup, hused, hrun⟩ := ih c hc (ProofTree.nodup_ids_child hids hc) hmem
        refine ⟨up ++ [t.id], used + 1, fun m => ?_, ?_, fun turns => ?_⟩
        · rw [List.mem_append, List.mem_singleton, hup, above_child hids hc hmem]
        · have hlt := length_ids_child hc
          omega
        · have hstep : a.ancestors (turns + 1) c.id =
              (a.ancestors turns t.id).map fun rest => t.id :: rest := by
            rw [ancestors, (below c hc).top]
            rfl
          rw [Nat.add_comm used 1, ← Nat.add_assoc, hrun, hstep, Option.map_map]
          refine congrArg (Option.map · _) (funext fun rest => ?_)
          simp only [Function.comp_apply, List.append_assoc, List.singleton_append]

/-- Climbing to the root meets the nodes above. -/
theorem ancestors_ok (h : Stores a.data? tree none t) (hids : t.ids.Nodup)
    (hroom : t.ids.length ≤ a.nodes.length) (hn : n ∈ t.ids) :
    ∃ up, a.ancestors a.nodes.length n = some up ∧ ∀ m, m ∈ up ↔ t.Above m n := by
  obtain ⟨up, used, hup, hused, hrun⟩ := ancestors_within h hids hn
  obtain ⟨turns, hturns⟩ := Nat.exists_eq_add_of_le' (Nat.le_trans (Nat.le_of_lt hused) hroom)
  have hroot : a.ancestors turns t.id = some [] := by
    rw [ancestors, h.top]
    rfl
  refine ⟨up, ?_, hup⟩
  rw [hturns, hrun, hroot, Option.map_some, List.append_nil]

/-! ## What the climbs meet -/

/-- The tree that is stored for a node says whether it is in the tree. -/
theorem any_tree_iff (h : Stores a.data? tree none t)
    (htree : ∀ n d, a.data? n = some d → d.tree = tree → n ∈ t.ids) :
    (a.data? n).any (fun d => d.tree = tree) = true ↔ n ∈ t.ids := by
  rw [Option.any_eq_true]
  constructor
  · rintro ⟨d, hd, hd'⟩
    exact htree n d hd (of_decide_eq_true hd')
  · intro hn
    obtain ⟨d, hd, hd'⟩ := h.data hn
    exact ⟨d, hd, decide_eq_true hd'⟩

/-- What is met from the records: those of nodes in the tree, and empty ones
    for the nodes above them. -/
def Meets (t : ProofTree) (records met : List Record) : Prop :=
  ∀ m flags, (m, flags) ∈ met ↔ (m, flags) ∈ records ∧ m ∈ t.ids ∨
    flags = .none ∧ ∃ r ∈ records, r.1 ∈ t.ids ∧ t.Above m r.1

/-- One pass over the records meets every recorded node, and the nodes on the
    way to it. -/
theorem paths_ok (h : Stores a.data? tree none t) (hids : t.ids.Nodup)
    (hroom : t.ids.length ≤ a.nodes.length)
    (htree : ∀ n d, a.data? n = some d → d.tree = tree → n ∈ t.ids) (records : List Record) :
    ∃ met, a.paths tree records = some met ∧ Meets t records met := by
  induction records with
  | nil =>
      refine ⟨[], rfl, fun m flags => iff_of_false List.not_mem_nil ?_⟩
      rintro (⟨hmem, -⟩ | ⟨-, r, hr, -⟩)
      · exact List.not_mem_nil hmem
      · exact List.not_mem_nil hr
  | cons r rest ih =>
      obtain ⟨n, flags⟩ := r
      obtain ⟨met, hrun, hmet⟩ := ih
      -- a record of a node that has left the tree is dropped
      by_cases hn : n ∈ t.ids
      · obtain ⟨up, hup, habove⟩ := ancestors_ok h hids hroom hn
        refine ⟨(n, flags) :: up.map (fun id => (id, .none)) ++ met, ?_, fun m flags' => ?_⟩
        · rw [paths, hrun]
          show (if _ then _ else _) = _
          rw [if_pos ((any_tree_iff h htree).mpr hn), hup]
          rfl
        -- the nodes on the way are recorded without a flag
        · have hmem : (m, flags') ∈ up.map (fun id => (id, DeltaFlags.none)) ↔
              t.Above m n ∧ flags' = .none := by
            rw [List.mem_map, ← habove]
            constructor
            · rintro ⟨id, hid, heq⟩
              cases heq
              exact ⟨hid, rfl⟩
            · rintro ⟨hm, rfl⟩
              exact ⟨m, hm, rfl⟩
          rw [List.mem_append, List.mem_cons, hmem, hmet m flags']
          simp only [List.mem_cons, exists_eq_or_imp, Prod.mk.injEq]
          grind
      · refine ⟨met, ?_, fun m flags' => ?_⟩
        · rw [paths, hrun]
          show (if _ then _ else _) = _
          rw [if_neg fun hany => hn ((any_tree_iff h htree).mp hany)]
          rfl
        · rw [hmet m flags']
          simp only [List.mem_cons, exists_eq_or_imp, Prod.mk.injEq]
          grind

variable {met : List Record}

/-- A node is met exactly if it has a delta. -/
theorem Meets.isRecorded (hmet : Meets t records met) (hids : t.ids.Nodup) (n : NodeId) :
    isRecorded met n = hasDelta records t n := by
  rw [Bool.eq_iff_iff, ProofTree.hasDelta_iff hids, ProofTree.isRecorded, List.any_eq_true]
  simp only [ProofTree.isRecorded, List.any_eq_true, decide_eq_true_eq]
  constructor
  · rintro ⟨⟨m, flags⟩, hmem, rfl⟩
    rcases (hmet m flags).mp hmem with ⟨hrecord, hm⟩ | ⟨-, r, hr, hin, habove⟩
    · exact ⟨m, hm, ⟨_, hrecord, rfl⟩, .inl rfl⟩
    · exact ⟨r.1, hin, ⟨r, hr, rfl⟩, .inr habove⟩
  · rintro ⟨m, hm, ⟨⟨m', flags⟩, hr, rfl⟩, rfl | habove⟩
    · exact ⟨_, (hmet _ flags).mpr (.inl ⟨hr, hm⟩), rfl⟩
    · exact ⟨_, (hmet n .none).mpr (.inr ⟨rfl, _, hr, hm, habove⟩), rfl⟩

/-- Flags that contain each other are the same. -/
theorem flags_eq {x y : DeltaFlags} (hxy : x.contains y = true) (hyx : y.contains x = true) :
    x = y := by
  rw [DeltaFlags.contains_iff] at hxy hyx
  cases x
  cases y
  rw [UInt8.and_comm] at hyx
  exact congrArg DeltaFlags.mk (hyx.symm.trans hxy)

/-- What is met for a node of the tree has the flags recorded for it. -/
theorem Meets.flags (hmet : Meets t records met) (hn : n ∈ t.ids) :
    recordedFlags met n = recordedFlags records n := by
  refine flags_eq ?_ ?_
  · rw [ProofTree.contains_recordedFlags_iff]
    exact fun flags hflags =>
      ProofTree.contains_recordedFlags ((hmet n flags).mpr (.inl ⟨hflags, hn⟩))
  · rw [ProofTree.contains_recordedFlags_iff]
    intro flags hflags
    rcases (hmet n flags).mp hflags with ⟨hrecord, -⟩ | ⟨rfl, -⟩
    · exact ProofTree.contains_recordedFlags hrecord
    · exact DeltaFlags.contains_none _

/-! ## Laying it out -/

/-- The children with a delta, each laid out. -/
theorem mapM_deltas (lay : NodeId → Option NodeDelta) {cs : List ProofTree}
    (hlay : ∀ c ∈ cs, ∀ d, c.delta? records = some d → lay c.id = some d) :
    ((cs.filter fun c => (c.delta? records).isSome).map ProofTree.id).mapM lay =
      some (cs.filterMap (ProofTree.delta? records)) := by
  induction cs with
  | nil => rfl
  | cons c rest ih =>
      have hrest := ih fun d hd => hlay d (List.mem_cons_of_mem _ hd)
      rw [List.filter_cons, List.filterMap_cons]
      cases hdelta : c.delta? records with
      | none => exact hrest
      | some d =>
          show List.mapM lay (c.id :: _) = some (d :: _)
          rw [List.mapM_cons, hlay c List.mem_cons_self d hdelta, hrest]
          rfl

/-- From a node that is met, the layout is the delta of the subtree. -/
theorem shapeAt_ok (hmet : Meets t records met) (hids : t.ids.Nodup)
    (hstored : Stores a.data? tree parent p) (hfind : t.find? p.id = some p) {d : NodeDelta}
    (hdelta : p.delta? records = some d) {turns : Nat} (hturns : p.ids.length ≤ turns) :
    a.shapeAt met turns p.id = some d := by
  -- downwards from the root, where a turn is spent on each level
  induction p using ProofTree.children_induct generalizing parent d turns with
  | step p ih =>
      obtain ⟨turns, rfl⟩ := exists_turn hturns
      have hfound : ∀ c ∈ p.children, t.find? c.id = some c := fun c hc =>
        ProofTree.find?_trans hids hfind
          (ProofTree.find?_child (ProofTree.nodup_ids_find? hids hfind) hc)
      -- the children that are recorded are those with a delta
      have hchildren : (p.children.map ProofTree.id).filter (fun c => isRecorded met c) =
          (p.children.filter fun c => (c.delta? records).isSome).map ProofTree.id := by
        rw [List.filter_map]
        refine congrArg (List.map ProofTree.id) (List.filter_congr fun c hc => ?_)
        rw [Function.comp_apply, hmet.isRecorded hids, hasDelta, hfound c hc, Option.any_some]
      have hlay : ∀ c ∈ p.children, ∀ d, c.delta? records = some d →
          a.shapeAt met turns c.id = some d := fun c hc d hd =>
        ih c hc (hstored.child c hc) (hfound c hc) hd
          (Nat.le_of_lt_succ (Nat.lt_of_lt_of_le (length_ids_child hc) hturns))
      have hbelow := mapM_deltas (fun c => a.shapeAt met turns c) hlay
      rw [shapeAt, hstored.top]
      show (List.mapM _ ((p.children.map ProofTree.id).filter _) >>= _) = _
      rw [hchildren, hbelow, ProofTree.eq_of_delta? hdelta,
        ← hmet.flags (ProofTree.mem_ids_of_find? hfind)]
      rfl

/-- Nothing is met if there is no delta. -/
theorem Meets.eq_nil (hmet : Meets t records met) (hdelta : t.delta? records = none) :
    met = [] := by
  have hnone : ∀ r ∈ records, r.1 ∉ t.ids := by
    intro r hr hmem
    have hsome : (t.delta? records).isSome = true :=
      ProofTree.isSome_delta?.mpr ⟨r.1, hmem, List.any_eq_true.mpr ⟨r, hr, decide_eq_true rfl⟩⟩
    rw [hdelta] at hsome
    cases hsome
  refine List.eq_nil_iff_forall_not_mem.mpr fun ⟨m, flags⟩ hmem => ?_
  rcases (hmet m flags).mp hmem with ⟨hr, hm⟩ | ⟨-, r, hr, hin, -⟩
  · exact hnone _ hr hm
  · exact hnone r hr hin

/-- **The shape of an arena is the delta of the tree it stores.** -/
theorem shape_ok (h : Stores a.data? tree none t) (hids : t.ids.Nodup)
    (hroom : t.ids.length ≤ a.nodes.length)
    (htree : ∀ n d, a.data? n = some d → d.tree = tree → n ∈ t.ids) (records : List Record) :
    a.shape tree t.id records = some ((t.delta? records).map fun root => ⟨tree, root⟩) := by
  obtain ⟨met, hrun, hmet⟩ := paths_ok h hids hroom htree records
  rw [shape, hrun]
  show (if met.isEmpty then _ else _) = _
  cases hdelta : t.delta? records with
  | none =>
      rw [hmet.eq_nil hdelta]
      rfl
  | some d =>
      have htop : isRecorded met t.id = true := by
        rw [hmet.isRecorded hids, hasDelta, t.find?_id, Option.any_some, hdelta]
        rfl
      have hmet' : ¬ met.isEmpty = true := by
        intro hempty
        rw [List.isEmpty_iff.mp hempty] at htop
        cases htop
      rw [if_neg hmet', shapeAt_ok hmet hids h t.find?_id hdelta hroom]
      rfl

end SequentProver.Arena
