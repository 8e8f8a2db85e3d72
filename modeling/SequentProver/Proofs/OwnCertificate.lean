import SequentProver.Proofs.CertificateFold
import SequentProver.Proofs.Reachable

/-! # Every proof meets its own certificate

    In a reachable forest the dependencies of every node are met by the
    node's own sequent, whatever rules were applied and however subtrees
    were moved about. -/

namespace SequentProver

/-- What the children of a node release, in order. -/
def Rule.released (r : Rule) (skipped : SkippedActions) (children : List ProofTree) :
    List Dependencies :=
  releaseChildren r.antecedents skipped.rows
    (children.map fun t => (t.dependencies, t.sequent.env))

namespace ProofTree

variable {allowed : Rule → Prop}

/-- What a node depends on, from what its children release. -/
theorem dependencies_applied (node : Node) (rule : Rule) (skipped : SkippedActions)
    (children : List ProofTree) :
    (ProofTree.applied node rule skipped children).dependencies =
      rule.collect (rule.released skipped children) node.sequent.env := by
  rw [dependencies, dependenciesAmong_eq, Rule.foldDependencies_eq]
  rfl

/-- The children and the flags that antecedents gave on `s`, in order. -/
inductive Recorded (s : Sequent) :
    List Antecedent → List ProofTree → List (List Bool) → Prop
  | nil : Recorded s [] [] []
  | cons {a : Antecedent} {c : ProofTree} {flags : List Bool} {as : List Antecedent}
      {cs : List ProofTree} {rows : List (List Bool)}
      (expand : a.expand s = some (c.sequent, flags))
      (rest : Recorded s as cs rows) : Recorded s (a :: as) (c :: cs) (flags :: rows)

/-- Children that come from antecedents one by one are recorded. -/
theorem recorded_of_forall₂ {s : Sequent} {as : List Antecedent} {cs : List (Sequent × List Bool)}
    {children : List ProofTree} (has : List.Forall₂ (fun a c => a.expand s = some c) as cs)
    (hchildren : cs.map Prod.fst = children.map sequent) :
    Recorded s as children (cs.map Prod.snd) := by
  induction has generalizing children with
  | nil =>
      cases children with
      | nil => exact .nil
      | cons t rest => exact nomatch hchildren
  | @cons a c as cs hc _ ih =>
      cases children with
      | nil => exact nomatch hchildren
      | cons t rest =>
          obtain ⟨hsequent, hrest⟩ := List.cons.inj hchildren
          refine .cons ?_ (ih hrest)
          rw [hc, ← hsequent]

/-- Each released part comes from one child and its antecedent. -/
theorem Recorded.metBy_release {s : Sequent} {as : List Antecedent} {children : List ProofTree}
    {rows : List (List Bool)} (h : Recorded s as children rows) (hs : s.WellTyped)
    (hchildren : ∀ c ∈ children, c.dependencies.MetBy c.sequent) :
    ∀ d ∈ Rule.releaseChildren as rows (children.map fun t => (t.dependencies, t.sequent.env)),
      d.MetBy s := by
  induction h with
  | nil =>
      intro d hd
      rw [Rule.releaseChildren.eq_def] at hd
      exact nomatch hd
  | @cons a c flags as cs rows hexpand _ ih =>
      intro d hd
      rcases List.mem_cons.mp hd with rfl | hd
      · exact Antecedent.metBy_release hs hexpand (hchildren c List.mem_cons_self)
      · exact ih (fun c hc => hchildren c (List.mem_cons_of_mem _ hc)) d hd

/-- A node with a rule: where the rule was applied, what the antecedents gave
    there, and that what the children release is met there. -/
theorem exists_recorded {node : Node} {rule : Rule} {skipped : SkippedActions}
    {children : List ProofTree}
    (h : (ProofTree.applied node rule skipped children).Justified allowed)
    (hchildren : ∀ c ∈ children, c.dependencies.MetBy c.sequent) :
    ∃ s, s.sameAs node.sequent = true ∧ s.WellTyped ∧ rule.fits s = true ∧
      Recorded s rule.antecedents children skipped.rows ∧
      ∀ d ∈ rule.released skipped children, d.MetBy s := by
  obtain ⟨-, s, hsame, hexpand⟩ := h.step rule rfl
  have hs : s.WellTyped := .of_sameAs hsame h.wellTyped
  obtain ⟨hfits, cs, hcs, hmap, rfl⟩ := Rule.expand_eq_some.mp hexpand
  have hrecorded := recorded_of_forall₂ (Antecedent.expandAll_eq_some.mp hcs) hmap
  exact ⟨s, hsame, hs, hfits, hrecorded, hrecorded.metBy_release hs hchildren⟩

/-- Every proof in order meets its own dependencies, by induction. -/
theorem metBy_dependencies {t : ProofTree} (h : t.Everywhere (Justified allowed)) :
    t.dependencies.MetBy t.sequent := by
  induction t with
  | openNode node =>
      refine ⟨?_, fun p hp => absurd hp List.not_mem_nil, fun x hx => Or.inr ?_,
        fun y hy => absurd hy List.not_mem_nil⟩
      · rintro g ⟨⟩
        rfl
      · rcases SortedSet.mem_union.mp hx with hx | hx
        · exact nomatch hx
        · exact (TypeEnv.mem_freeIdents.mp hx).2.2
  | applied node rule skipped children ih =>
      obtain ⟨s, hsame, -, hfits, -, hreleased⟩ :=
        exists_recorded h.top fun c hc => ih c hc (h.child c hc)
      have henv : s.env = node.sequent.env := (Sequent.sameAs_spec hsame).2.1
      refine Dependencies.MetBy.of_sameAs hsame ?_
      rw [dependencies_applied, ← henv]
      exact Rule.metBy_collect hfits hreleased

end ProofTree

namespace Forest

/-- **Every node meets its own certificate**: the goal is absent or that of
    the node, the hypotheses are there, the names are bound as they were and
    introduced names are not bound. -/
theorem nodeDependencies_reusable {f : Forest} (hf : f.Reachable) {n : NodeId} {p : ProofTree}
    (hnode : f.node? n = some p) :
    ∃ d, f.nodeDependencies n = .ok d ∧ d.reusableOn p.sequent = true ∧
      (d.goal = none ∨ d.goal = some p.sequent.goal) ∧
      (∀ h ∈ d.hyps, p.sequent.has h = true) ∧
      (∀ x ∈ d.idents, p.sequent.env.typeOf? x.name = some x.ty) ∧
      ∀ y ∈ d.introduced, p.sequent.env.typeOf? y = none := by
  obtain ⟨⟨t, p'⟩, located, hp⟩ := Option.map_eq_some_iff.mp hnode
  cases hp
  have hmet := ProofTree.metBy_dependencies (hf.wf.of_locate? (locate?_bench_of located [])).2
  refine ⟨p'.dependencies, ?_, Dependencies.reusableOn_iff.mpr hmet, ?_,
    fun h hh => hmet.covered.has hh, fun x hx => hmet.covered.typeOf? hx, hmet.covered.introduced⟩
  · rw [nodeDependencies, nodeOrError, hnode]
    rfl
  · cases hgoal : p'.dependencies.goal with
    | none => exact Or.inl rfl
    | some g => exact Or.inr (congrArg some (hmet.goal g hgoal))

/-- A rule that draws `x = 1`, for a new name `x`, from `⊤`. -/
def drawing : Rule where
  reasoner := "draw"
  display := "draw"
  confidence := .dischargedMax
  antecedents := [{ actions := [.infer (SortedBy.ofList [.top]) [⟨"x", .integer⟩]
    (SortedBy.ofList [.relation .eq (.ident "x") (.integer 1)])] }]

/-- A rule that rests on `x = 1`. -/
def resting : Rule where
  reasoner := "rest"
  display := "rest"
  needed := SortedBy.ofList [.relation .eq (.ident "x") (.integer 1)]
  confidence := .dischargedMax

/-- Both rules, one after the other, on `⊤ ⊢ ⊥`. -/
def drawn : Forest :=
  let f := (Forest.empty.createTree ⟨.empty, SortedBy.ofList [⟨.top, .given, .plain⟩], .bottom⟩
    none).2
  ((f.applyRule ⟨0, 0⟩ drawing).2.applyRule ⟨1, 0⟩ resting).2

theorem drawn_reachable : Reachable drawn := by
  have hsequent :
      Sequent.WellTyped ⟨.empty, SortedBy.ofList [⟨.top, .given, .plain⟩], .bottom⟩ := by
    decide +kernel
  have hcreated : Reachable _ := .step (.createTree _ none) .empty hsequent
  exact .step (.applyRule ⟨1, 0⟩ resting) (.step (.applyRule ⟨0, 0⟩ drawing) hcreated trivial)
    trivial

theorem drawn_reusable :
    ∃ p, drawn.node? ⟨0, 0⟩ = some p ∧
      ∃ d, drawn.nodeDependencies ⟨0, 0⟩ = .ok d ∧ d.reusableOn p.sequent = true ∧
        (d.goal = none ∨ d.goal = some p.sequent.goal) ∧
        (∀ h ∈ d.hyps, p.sequent.has h = true) ∧
        (∀ x ∈ d.idents, p.sequent.env.typeOf? x.name = some x.ty) ∧
        ∀ y ∈ d.introduced, p.sequent.env.typeOf? y = none :=
  ⟨_, rfl, nodeDependencies_reusable drawn_reachable rfl⟩

end Forest

end SequentProver
