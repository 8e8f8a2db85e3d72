import SequentProver.Proofs.Links

/-! # Levels of confidence

    Every node stores its level, and an operation recomputes levels only on
    the way to the root and only as far as they change.  In a reachable
    forest the stored levels are right all the same: each is the one that
    the whole subtree below the node gives.

    The level of a tree is the lowest among what its nodes contribute, the
    level of the rule or that of an open node.  So a tree whose rules are
    made in the regular way is closed exactly if nothing in it is open. -/

namespace SequentProver

/-! ## Levels as numbers -/

namespace Confidence

/-- Levels are known by their numbers. -/
theorem value_injective : Function.Injective value := by
  rintro ⟨a⟩ ⟨b⟩ h
  exact congrArg Confidence.mk (Int32.toInt_inj.mp h)

/-- Levels with the same numbers below them are equal. -/
theorem eq_of_lt_value {c d : Confidence} (h : ∀ k : Int, k < c.value ↔ k < d.value) : c = d := by
  have hle : ¬ d.value < c.value := fun hlt => Int.lt_irrefl _ ((h d.value).mp hlt)
  have hge : ¬ c.value < d.value := fun hlt => Int.lt_irrefl _ ((h c.value).mpr hlt)
  exact value_injective (by omega)

end Confidence

namespace ProofTree

variable {t p : ProofTree} {n : NodeId}

/-! ## Levels computed afresh -/

mutual

/-- The level of a proof from its rules and comments alone; no stored level
    is looked at. -/
def freshLevel : ProofTree → Confidence
  | .openNode node => if node.comment = "" then .unattempted else .pending
  | .applied _ rule _ children => lowestAmong rule.confidence children

/-- The lowest of a level and the levels of some proofs. -/
def lowestAmong (level : Confidence) : List ProofTree → Confidence
  | [] => level
  | t :: rest => (freshLevel t).min (lowestAmong level rest)

end

/-- A bound below the lowest level is one below all of them. -/
theorem lt_lowestAmong {k : Int} {level : Confidence} {ts : List ProofTree} :
    k < (lowestAmong level ts).value ↔ k < level.value ∧ ∀ t ∈ ts, k < t.freshLevel.value := by
  induction ts with
  | nil => simp [lowestAmong]
  | cons t rest ih =>
      rw [lowestAmong, Confidence.lt_value_min, ih, List.forall_mem_cons]
      exact and_left_comm

/-- In a settled tree the stored level is the one computed afresh. -/
theorem confidence_eq_freshLevel (ht : t.Settled) : t.confidence = t.freshLevel := by
  induction t with
  | openNode node => exact ht.top
  | applied node rule skipped children ih =>
      refine Confidence.eq_of_lt_value fun k => ?_
      rw [ht.top, lt_level_applied, freshLevel, lt_lowestAmong]
      refine and_congr_right fun _ => forall₂_congr fun c hc => ?_
      rw [ih c hc (ht.child c hc)]

/-! ## What single nodes contribute -/

/-- What the node at the top contributes to the level of a tree. -/
def ownLevel (t : ProofTree) : Confidence :=
  match t.rule? with
  | some rule => rule.confidence
  | none => if t.comment = "" then .unattempted else .pending

/-- A bound is below the level of a tree if it is below what every node
    contributes. -/
theorem lt_confidence_iff {k : Int} (ht : t.Settled) :
    k < t.confidence.value ↔ t.Everywhere fun p => k < p.ownLevel.value := by
  induction t with
  | openNode node =>
      rw [ht.top]
      exact ⟨fun h => .of_open h, fun h => h.top⟩
  | applied node rule skipped children ih =>
      rw [ht.top, lt_level_applied]
      constructor
      · rintro ⟨hrule, hchildren⟩
        exact .mk hrule fun c hc => (ih c hc (ht.child c hc)).mp (hchildren c hc)
      · intro h
        exact ⟨h.top, fun c hc => (ih c hc (ht.child c hc)).mpr (h.child c hc)⟩

/-- The level at the top is no higher than what any node contributes. -/
theorem confidence_le_ownLevel (ht : t.Settled) (hfind : t.find? n = some p) :
    t.confidence.value ≤ p.ownLevel.value := by
  have hbelow : t.confidence.value - 1 < p.ownLevel.value :=
    (((lt_confidence_iff ht).mp (by omega)).find? hfind).top
  omega

/-- Some node contributes the level of the tree. -/
theorem exists_ownLevel_eq (ht : t.Settled) (hids : t.ids.Nodup) :
    ∃ n p, t.find? n = some p ∧ p.ownLevel = t.confidence := by
  have hnot : ¬ t.Everywhere fun p => t.confidence.value < p.ownLevel.value := fun h =>
    Int.lt_irrefl _ ((lt_confidence_iff ht).mpr h)
  obtain ⟨n, p, hfind, hp⟩ := exists_find?_of_not_everywhere hids hnot
  have hle := confidence_le_ownLevel ht hfind
  exact ⟨n, p, hfind, Confidence.value_injective (by omega)⟩

/-- Where there is a rule, its level is what the node contributes. -/
theorem ownLevel_of_rule {rule : Rule} (h : p.rule? = some rule) :
    p.ownLevel = rule.confidence := by
  rw [ownLevel, h]

/-- An open node contributes by its comment. -/
theorem ownLevel_of_open (h : p.isOpen = true) :
    p.ownLevel = if p.comment = "" then .unattempted else .pending := by
  rw [ownLevel, Option.isNone_iff_eq_none.mp h]

end ProofTree

/-! ## Rules made in the regular way -/

/-- The rule was made at a level that a rule may have; what it says was
    filled in afterwards. -/
def Rule.Made (r : Rule) : Prop :=
  ∃ made, Rule.make r.reasoner r.display r.confidence = .ok made ∧
    r = { made with
      input := r.input, goal := r.goal, needed := r.needed, antecedents := r.antecedents }

/-- A rule that was made has a level that rules may have. -/
theorem Rule.Made.confidence {r : Rule} (h : r.Made) :
    Confidence.pending.value < r.confidence.value ∧
      r.confidence.value ≤ Confidence.dischargedMax.value := by
  obtain ⟨made, hmade, -⟩ := h
  rw [make] at hmade
  split at hmade
  · rename_i hvalid
    rw [Confidence.isValidForRule, Confidence.isClosed, Bool.and_eq_true, decide_eq_true_eq,
      decide_eq_true_eq] at hvalid
    exact hvalid
  · exact nomatch hmade

namespace ProofTree

variable {t p : ProofTree} {n : NodeId}

/-! ## Open nodes and the level -/

/-- Without an open node, the level of a tree is the lowest level of its
    rules. -/
theorem exists_rule_of_openNodes_eq_nil (ht : t.Settled) (hids : t.ids.Nodup)
    (hnone : t.openNodes = []) :
    ∃ n p rule, t.find? n = some p ∧ p.rule? = some rule ∧ rule.confidence = t.confidence := by
  obtain ⟨n, p, hfind, hown⟩ := exists_ownLevel_eq ht hids
  cases hrule : p.rule? with
  | none =>
      have hmem := (mem_openNodes hids).mpr ⟨p, hfind, Option.isNone_iff_eq_none.mpr hrule⟩
      rw [hnone] at hmem
      exact nomatch hmem
  | some rule => exact ⟨n, p, rule, hfind, hrule, (ownLevel_of_rule hrule).symm.trans hown⟩

section Open

variable (ht : t.Settled) (hids : t.ids.Nodup)
  (hmade : ∀ n p rule, t.find? n = some p → p.rule? = some rule → rule.Made)
include ht hids hmade

/-- A tree is closed if none of its nodes is open. -/
theorem isClosed_eq_isEmpty_openNodes : t.confidence.isClosed = t.openNodes.isEmpty := by
  rw [Bool.eq_iff_iff, Confidence.isClosed, decide_eq_true_eq, List.isEmpty_iff,
    List.eq_nil_iff_forall_not_mem]
  constructor
  · intro hclosed n hn
    obtain ⟨p, hfind, hopen⟩ := (mem_openNodes hids).mp hn
    -- an open node contributes at most the level of one with a comment
    have hle := confidence_le_ownLevel ht hfind
    rw [ownLevel_of_open hopen] at hle
    split at hle
    · exact absurd (Int.lt_of_lt_of_le hclosed hle) (by decide)
    · exact absurd (Int.lt_of_lt_of_le hclosed hle) (by decide)
  · intro hnone
    obtain ⟨n, p, hfind, hown⟩ := exists_ownLevel_eq ht hids
    cases hrule : p.rule? with
    | none =>
        have hopen : p.isOpen = true := Option.isNone_iff_eq_none.mpr hrule
        exact absurd ((mem_openNodes hids).mpr ⟨p, hfind, hopen⟩) (hnone n)
    | some rule =>
        rw [← hown, ownLevel_of_rule hrule]
        exact (hmade n p rule hfind hrule).confidence.1

/-- With an open node, the level of a tree is that of an open node. -/
theorem exists_open_of_openNodes_ne_nil (hsome : t.openNodes ≠ []) :
    ∃ n p, t.find? n = some p ∧ p.isOpen = true ∧ p.ownLevel = t.confidence := by
  obtain ⟨n, p, hfind, hown⟩ := exists_ownLevel_eq ht hids
  refine ⟨n, p, hfind, ?_, hown⟩
  cases hrule : p.rule? with
  | none => exact Option.isNone_iff_eq_none.mpr hrule
  | some rule =>
      -- a rule has a level above that of any open node
      have hclosed : t.confidence.isClosed = true := by
        rw [← hown, ownLevel_of_rule hrule, Confidence.isClosed, decide_eq_true_eq]
        exact (hmade n p rule hfind hrule).confidence.1
      rw [isClosed_eq_isEmpty_openNodes ht hids hmade, List.isEmpty_iff] at hclosed
      exact absurd hclosed hsome

/-- That level is pending if all open nodes have comments. -/
theorem confidence_eq_pending (hsome : t.openNodes ≠ [])
    (hcomments : ∀ n p, t.find? n = some p → p.isOpen = true → p.comment ≠ "") :
    t.confidence = .pending := by
  obtain ⟨n, p, hfind, hopen, hown⟩ := exists_open_of_openNodes_ne_nil ht hids hmade hsome
  rw [← hown, ownLevel_of_open hopen, if_neg (hcomments n p hfind hopen)]

/-- And unattempted if some open node has none. -/
theorem confidence_eq_unattempted (hfind : t.find? n = some p) (hopen : p.isOpen = true)
    (hcomment : p.comment = "") : t.confidence = .unattempted := by
  have hsome : t.openNodes ≠ [] :=
    List.ne_nil_of_mem ((mem_openNodes hids).mpr ⟨p, hfind, hopen⟩)
  obtain ⟨m, q, hq, hqopen, hown⟩ := exists_open_of_openNodes_ne_nil ht hids hmade hsome
  have hle := confidence_le_ownLevel ht hfind
  rw [ownLevel_of_open hopen, if_pos hcomment] at hle
  rw [ownLevel_of_open hqopen] at hown
  split at hown
  · exact hown.symm
  · rw [← hown] at hle
    exact absurd hle (by decide)

end Open

end ProofTree

namespace Forest

variable {f : Forest} {n : NodeId} {p : ProofTree} {tree : TreeId} {t : Tree}

/-! ## Reachable forests -/

/-- **Stored levels are exact.**  In every reachable forest, in the middle of
    batches too, the level stored at a node is the one computed afresh from
    the rules and comments at and below it. -/
theorem stored_confidence_fresh (hf : f.Reachable) (hnode : f.node? n = some p) :
    p.confidence = p.freshLevel := by
  obtain ⟨⟨t, p'⟩, located, rfl⟩ := Option.map_eq_some_iff.mp hnode
  exact ProofTree.confidence_eq_freshLevel (hf.wf.of_locate? (locate?_bench_of located [])).1

theorem moved_confidence_fresh :
    ∃ p, moved.node? ⟨0, 0⟩ = some p ∧ p.confidence = .pending ∧
      p.confidence = p.freshLevel := by
  have hlevel : (moved.node? ⟨0, 0⟩).map ProofTree.confidence = some .pending := by
    decide +kernel
  obtain ⟨p, hnode, hp⟩ := Option.map_eq_some_iff.mp hlevel
  exact ⟨p, hnode, hp, stored_confidence_fresh (moved_reachable trivial) hnode⟩

/-- Some node of the tree has the rule. -/
def HasRule (f : Forest) (tree : TreeId) (rule : Rule) : Prop :=
  ∃ n p, f.treeOf n = .ok tree ∧ f.node? n = some p ∧ p.rule? = some rule

/-- The node is there and has a comment. -/
def HasComment (f : Forest) (n : NodeId) : Prop := ∃ p, f.node? n = some p ∧ p.comment ≠ ""

/-- The rules of a tree are those at its nodes. -/
theorem hasRule_iff {allowed : Rule → Prop} (h : (f.bench []).Wf allowed)
    (htree : f.tree? tree = some t) {rule : Rule} :
    f.HasRule tree rule ↔ ∃ n p, t.proof.find? n = some p ∧ p.rule? = some rule := by
  obtain ⟨ht, rfl⟩ := (tree?_eq_some h).mp htree
  constructor
  · rintro ⟨n, p, htreeOf, hnode, hrule⟩
    obtain ⟨u, hu, hfind⟩ := (node?_eq_some h).mp hnode
    rw [treeOf_of_find? h hu hfind] at htreeOf
    have hid : u.id = t.id := Except.ok.inj htreeOf
    rw [List.inj_on_of_nodup_map (nodup_trees h) hu ht hid] at hfind
    exact ⟨n, p, hfind, hrule⟩
  · rintro ⟨n, p, hfind, hrule⟩
    exact ⟨n, p, treeOf_of_find? h ht hfind, (node?_eq_some h).mpr ⟨t, ht, hfind⟩, hrule⟩

/-- A forest has no rules but those that operations brought in. -/
theorem ReachableWith.allowed_of_hasRule {allowed : Rule → Prop} (hf : f.ReachableWith allowed)
    {rule : Rule} (h : f.HasRule tree rule) : allowed rule := by
  obtain ⟨n, p, -, hnode, hrule⟩ := h
  obtain ⟨⟨t, p'⟩, located, rfl⟩ := Option.map_eq_some_iff.mp hnode
  exact ((hf.wf.of_locate? (locate?_bench_of located [])).2.top.step rule hrule).1

section Tree

variable {allowed : Rule → Prop} (h : (f.bench []).Wf allowed) (htree : f.tree? tree = some t)
include h htree

/-- The trees of a forest in order are settled. -/
theorem settled_of_tree? : t.proof.Settled :=
  h.settled _ (Bench.mem_all_of_mem (mem_bench_of_tree? htree []).2)

/-- The root of a tree that is there. -/
theorem root_of_tree? : f.root tree = .ok t.proof.id := by
  obtain ⟨ht, hid⟩ := (tree?_eq_some h).mp htree
  exact (root_eq_ok h).mpr ⟨t, ht, hid, rfl⟩

/-- A node of a tree that is there. -/
theorem node?_of_find? (hfind : t.proof.find? n = some p) : f.node? n = some p := by
  obtain ⟨ht, -⟩ := (tree?_eq_some h).mp htree
  exact (node?_eq_some h).mpr ⟨t, ht, hfind⟩

/-- The open nodes below a root are those of the tree. -/
theorem openDescendants_root : f.openDescendants t.proof.id = .ok t.proof.openNodes := by
  rw [openDescendants, nodeOrError, node?_of_find? h htree t.proof.find?_id]
  rfl

/-- The open nodes of a tree all have comments if each of them has one
    where it is found. -/
theorem hasComment_iff : (∀ n ∈ t.proof.openNodes, f.HasComment n) ↔
    ∀ n p, t.proof.find? n = some p → p.isOpen = true → p.comment ≠ "" := by
  obtain ⟨ht, -⟩ := (tree?_eq_some h).mp htree
  have hids := nodup_ids h ht
  constructor
  · intro hall n p hfind hopen
    obtain ⟨q, hq, hcomment⟩ := hall n ((ProofTree.mem_openNodes hids).mpr ⟨p, hfind, hopen⟩)
    cases (node?_of_find? h htree hfind).symm.trans hq
    exact hcomment
  · intro hall n hn
    obtain ⟨p, hfind, hopen⟩ := (ProofTree.mem_openNodes hids).mp hn
    exact ⟨p, node?_of_find? h htree hfind, hall n p hfind hopen⟩

end Tree

/-- The level of a tree is the one at its root. -/
theorem confidence_of_tree? (htree : f.tree? tree = some t) :
    f.confidence tree = .ok t.proof.confidence := by
  rw [confidence, treeOrError, htree]
  rfl

/-- **Closed means nothing is open.**  A tree is closed if and only if no
    node below its root is open.  Then its level is the lowest of its rules'
    and one that a rule may have; otherwise it tells whether every open node
    has a comment. -/
theorem isClosed_iff_no_open (hf : f.Reachable) (hmade : ∀ tree rule, f.HasRule tree rule →
      rule.Made) (htree : f.tree? tree = some t) :
    ∃ root goals level, f.root tree = .ok root ∧ f.openDescendants root = .ok goals ∧
      f.confidence tree = .ok level ∧ f.isClosed tree = .ok (decide (goals = [])) ∧
      (goals = [] →
        (∃ rule, f.HasRule tree rule ∧ rule.confidence = level) ∧
        (∀ rule, f.HasRule tree rule → level.value ≤ rule.confidence.value) ∧
        Confidence.pending.value < level.value ∧
        level.value ≤ Confidence.dischargedMax.value) ∧
      (goals ≠ [] →
        ((∀ n ∈ goals, f.HasComment n) → level = .pending) ∧
        ((¬ ∀ n ∈ goals, f.HasComment n) → level = .unattempted)) := by
  have hwf := hf.wf
  have hids := nodup_ids hwf ((tree?_eq_some hwf).mp htree).1
  have hsettled := settled_of_tree? hwf htree
  have hlevel := confidence_of_tree? htree
  have hrules : ∀ n p rule, t.proof.find? n = some p → p.rule? = some rule → rule.Made :=
    fun n p rule hfind hrule => hmade tree rule ((hasRule_iff hwf htree).mpr ⟨n, p, hfind, hrule⟩)
  refine ⟨t.proof.id, t.proof.openNodes, t.proof.confidence, root_of_tree? hwf htree,
    openDescendants_root hwf htree, hlevel, ?_, ?_, ?_⟩
  -- a level above pending is reached exactly when nothing is open
  · rw [isClosed, hlevel, Except.map, ProofTree.isClosed_eq_isEmpty_openNodes hsettled hids hrules]
    cases t.proof.openNodes <;> rfl
  · intro hnone
    -- the lowest rule sets the level, and no rule that was made is at pending or below
    obtain ⟨n, p, rule, hfind, hrule, hlowest⟩ :=
      ProofTree.exists_rule_of_openNodes_eq_nil hsettled hids hnone
    have hbounds := (hrules n p rule hfind hrule).confidence
    rw [hlowest] at hbounds
    refine ⟨⟨rule, (hasRule_iff hwf htree).mpr ⟨n, p, hfind, hrule⟩, hlowest⟩, ?_, hbounds⟩
    intro other hother
    obtain ⟨m, q, hq, hqrule⟩ := (hasRule_iff hwf htree).mp hother
    rw [← ProofTree.ownLevel_of_rule hqrule]
    exact ProofTree.confidence_le_ownLevel hsettled hq
  · intro hsome
    rw [hasComment_iff hwf htree]
    constructor
    · exact ProofTree.confidence_eq_pending hsettled hids hrules hsome
    -- one open node without a comment pulls the level down to the bottom
    · intro hcomments
      simp only [not_forall, not_not] at hcomments
      obtain ⟨n, p, hfind, hopen, hcomment⟩ := hcomments
      exact ProofTree.confidence_eq_unattempted hsettled hids hrules hfind hopen hcomment

/-- The rule of the examples is made at a level that a rule may have. -/
theorem waiving_made : waiving.Made := ⟨_, rfl, rfl⟩

/-- The one open node of the tree has a comment. -/
theorem moved_pending :
    moved.openDescendants ⟨0, 0⟩ = .ok [⟨2, 0⟩] ∧ moved.isClosed ⟨0⟩ = .ok false ∧
      moved.confidence ⟨0⟩ = .ok .pending := by
  have hthere : (moved.tree? ⟨0⟩).isSome = true := by decide +kernel
  obtain ⟨t, htree⟩ := Option.isSome_iff_exists.mp hthere
  obtain ⟨root, goals, level, hroot, hgoals, hlevel, hclosed, -, hopen⟩ :=
    isClosed_iff_no_open (moved_reachable trivial)
      (fun _ _ h => (moved_reachable waiving_made).allowed_of_hasRule h) htree
  have htop : moved.root ⟨0⟩ = .ok ⟨0, 0⟩ := by decide +kernel
  have hlist : moved.openDescendants ⟨0, 0⟩ = .ok [⟨2, 0⟩] := by decide +kernel
  have hcomment : (moved.node? ⟨2, 0⟩).map ProofTree.comment = some "later" := by decide +kernel
  cases hroot.symm.trans htop
  cases hgoals.symm.trans hlist
  refine ⟨hlist, hclosed, hlevel.trans (congrArg _ ((hopen (List.cons_ne_nil _ _)).1 ?_))⟩
  intro n hn
  obtain ⟨p, hp, htext⟩ := Option.map_eq_some_iff.mp hcomment
  cases List.mem_singleton.mp hn
  exact ⟨p, hp, htext ▸ by decide⟩

end Forest

end SequentProver
