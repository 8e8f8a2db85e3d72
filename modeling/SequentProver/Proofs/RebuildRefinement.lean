import SequentProver.Proofs.Following
import SequentProver.Reasoner.Builtin

/-! # A rebuild refines a reuse

    A rebuild applies the recorded rule of a node first, and only where that
    rule does not apply it asks the recorded reasoner again.  The two replays
    are separate recursions over the skeleton.  They come to the same forest
    and the same answer as long as no reasoner gets to propose a rule, and
    none does where the recorded rules are enough to close the node.

    Route:
    1. `Matches`, what it means that a part of a rebuild comes to the same as
       that part of a reuse, and how it goes down a skeleton;
    2. one step: either the two do the same, or the rule was refused at an open
       node and the reasoner is asked;
    3. skeletons about which no reasoner is asked;
    4. nodes that a reuse closes. -/

namespace SequentProver

/-- Canceled from now on, whenever it is asked. -/
def Monitor.Canceled (m : Monitor) : Prop := ∀ k, m.polls ≤ k → m.canceled k = true

/-- A canceled monitor stays canceled. -/
theorem Monitor.Canceled.poll {m : Monitor} (h : m.Canceled) : m.poll.2.Canceled := by
  intro k hk
  exact h k (Nat.le_of_succ_le hk)

namespace Forest

open ProofTree (regrow regrowAmong)

variable {allowed : Rule → Prop} {f : Forest} {n : NodeId} {s : Skeleton} {registry : Registry}
  {config : ReplayConfig} {w : Watched}

/-! ## Two replays side by side -/

/-- A part of a rebuild that starts with the given monitor comes to the answer
    and the forest of a reuse, and leaves a canceled monitor canceled. -/
structure Matches {α : Type} (monitor : Monitor) (rebuilt : Except TreeError α × Watched)
    (reused : Except TreeError α × Forest) : Prop where
  answer : rebuilt.1 = reused.1
  forest : rebuilt.2.forest = reused.2
  canceled : monitor.Canceled → rebuilt.2.monitor.Canceled

/-- At a node the two replays match if they match in the step on the node and,
    where that step applies a rule, below. -/
theorem rebuildNode_matches {comment : String} {rule? : Option Rule} {children : List Skeleton}
    (hkeep : config.keepComments = true)
    (hstep : ∀ f rule, w.forest.restoreComment n comment = (.ok (), f) → rule? = some rule →
      Matches w.monitor (rebuildStep registry config ⟨f, w.monitor⟩ n rule) (f.reuseRule n rule))
    (hbelow : ∀ f g rule monitor, w.forest.restoreComment n comment = (.ok (), f) →
      rule? = some rule → f.reuseRule n rule = (.ok true, g) →
      (w.monitor.Canceled → monitor.Canceled) →
      Matches monitor (rebuildAmong registry config ⟨g, monitor⟩ (g.childIds n) children)
        (g.reuseAmong (g.childIds n) children)) :
    Matches w.monitor (rebuildNode registry config w n (.mk comment rule? children))
      (w.forest.reuseNode n (.mk comment rule? children)) := by
  rw [rebuildNode, reuseNode, if_pos hkeep]
  -- the two runs part at the rule only: the comment and the children are handled alike
  cases hcomment : w.forest.restoreComment n comment with
  | mk answer f =>
      cases answer with
      | error e => exact ⟨rfl, rfl, id⟩
      | ok u =>
          cases rule? with
          | none => exact ⟨rfl, rfl, id⟩
          | some rule =>
              have hmatch := hstep f rule hcomment rfl
              dsimp only
              generalize rebuildStep registry config ⟨f, w.monitor⟩ n rule = rebuilt at hmatch ⊢
              cases hrule : f.reuseRule n rule with
              | mk answer g =>
                  rw [hrule] at hmatch
                  obtain ⟨answer', g', monitor⟩ := rebuilt
                  obtain ⟨rfl, rfl, hcanceled⟩ := hmatch
                  cases answer' with
                  | error e => exact ⟨rfl, rfl, hcanceled⟩
                  | ok applied =>
                      cases applied with
                      | false => exact ⟨rfl, rfl, hcanceled⟩
                      | true =>
                          obtain ⟨hanswer, hforest, hcanceled'⟩ :=
                            hbelow f g' rule monitor hcomment rfl hrule hcanceled
                          exact ⟨hanswer, hforest, fun h => hcanceled' (hcanceled h)⟩

/-- At several nodes they match if they match at the first and then at the
    others. -/
theorem rebuildAmong_matches {nodes : List NodeId} {rest : List Skeleton}
    (hfirst : Matches w.monitor (rebuildNode registry config w n s) (w.forest.reuseNode n s))
    (hrest : ∀ g monitor, w.forest.reuseNode n s = (.ok (), g) →
      (w.monitor.Canceled → monitor.Canceled) →
      Matches monitor (rebuildAmong registry config ⟨g, monitor⟩ nodes rest)
        (g.reuseAmong nodes rest)) :
    Matches w.monitor (rebuildAmong registry config w (n :: nodes) (s :: rest))
      (w.forest.reuseAmong (n :: nodes) (s :: rest)) := by
  rw [rebuildAmong, reuseAmong]
  -- after the first child both go on from one forest, by `hfirst`
  generalize rebuildNode registry config w n s = rebuilt at hfirst ⊢
  cases hrun : w.forest.reuseNode n s with
  | mk answer g =>
      rw [hrun] at hfirst
      obtain ⟨answer', g', monitor⟩ := rebuilt
      obtain ⟨rfl, rfl, hcanceled⟩ := hfirst
      cases answer' with
      | error e => exact ⟨rfl, rfl, hcanceled⟩
      | ok u =>
          obtain ⟨hanswer, hforest, hcanceled'⟩ := hrest g' monitor hrun hcanceled
          exact ⟨hanswer, hforest, fun h => hcanceled' (hcanceled h)⟩

/-- The whole of a rebuild is the whole of a reuse if they match inside the
    batch. -/
theorem rebuild_eq_reuse {monitor : Monitor}
    (h : ∀ tree, f.treeOf n = .ok tree →
      Matches monitor (rebuildNode registry config ⟨f.beginBatch tree, monitor⟩ n s)
        ((f.beginBatch tree).reuseNode n s)) :
    f.rebuild n s registry monitor config = f.reuse n s := by
  rw [rebuild, reuse]
  cases htree : f.treeOf n with
  | error e => rfl
  | ok tree =>
      have hmatch := h tree htree
      dsimp only
      rw [inBatch, inBatch]
      -- from here only the outcomes of the two replays matter
      generalize rebuildNode registry config ⟨f.beginBatch tree, monitor⟩ n s = rebuilt at hmatch ⊢
      generalize (f.beginBatch tree).reuseNode n s = reused at hmatch ⊢
      obtain ⟨answer, g, monitor'⟩ := rebuilt
      obtain ⟨answer', g'⟩ := reused
      obtain ⟨rfl, rfl, -⟩ := hmatch
      cases answer with
      | error e => rfl
      | ok u => rfl

/-! ## One step -/

/-- A rule that is not applied changes nothing. -/
theorem applyRule_of_error {rule : Rule} {e : TreeError}
    (h : (f.applyRule n rule).1 = .error e) : (f.applyRule n rule).2 = f := by
  revert h
  rw [applyRule]
  split
  · exact fun _ => rfl
  · split
    · split
      · exact fun _ => rfl
      · intro h
        cases h
    · exact fun _ => rfl

/-- A rule that is refused leaves the forest as it was. -/
theorem tryRule_of_refused {rule : Rule} (h : (f.tryRule n rule).1 = .ok false) :
    f.tryRule n rule = (.ok false, f) := by
  refine Prod.ext h ?_
  rw [tryRule_forest]
  rw [tryRule] at h
  split at h
  · cases h
  · rename_i hrun
    exact applyRule_of_error (congrArg Prod.fst hrun)
  · cases h

/-- A rebuild takes the step of a reuse, or the recorded rule was refused at an
    open node and the recorded reasoner is asked. -/
theorem rebuildStep_cases (hfirst : config.reuseFirst = true) (registry : Registry) (w : Watched)
    (n : NodeId) (rule : Rule) :
    rebuildStep registry config w n rule =
        ((w.forest.reuseRule n rule).1, ⟨(w.forest.reuseRule n rule).2, w.monitor⟩) ∨
      (config.rerunReasoners = true ∧ (∃ p, w.forest.node? n = some p ∧ p.isOpen = true) ∧
        w.forest.reuseRule n rule = (.ok false, w.forest) ∧
        rebuildStep registry config w n rule = rerun registry w n rule) := by
  rw [rebuildStep, reuseRule, nodeOrError]
  cases hnode : w.forest.node? n with
  | none => exact .inl rfl
  | some p =>
      dsimp only
      by_cases hopen : p.isOpen = true
      · rw [if_pos hopen, if_pos hopen, if_pos hfirst]
        cases htry : w.forest.tryRule n rule with
        | mk answer f =>
            cases answer with
            | error e => exact .inl rfl
            | ok applied =>
                cases applied with
                | true => exact .inl rfl
                -- a rule that is refused leaves the forest alone, so the reasoner starts from it
                | false =>
                    have hsame := tryRule_of_refused (congrArg Prod.fst htry)
                    cases htry.symm.trans hsame
                    dsimp only
                    by_cases hrerun : config.rerunReasoners = true
                    · rw [if_pos hrerun]
                      exact .inr ⟨hrerun, ⟨p, rfl, hopen⟩, rfl, rfl⟩
                    · rw [if_neg hrerun]
                      exact .inl rfl
      · rw [if_neg hopen, if_neg hopen]
        exact .inl rfl

/-- The same answer and the same forest match. -/
theorem Matches.of_eq {α : Type} {monitor : Monitor} {reused : Except TreeError α × Forest} :
    Matches monitor (reused.1, ⟨reused.2, monitor⟩) reused :=
  ⟨rfl, rfl, id⟩

/-! ## No reasoner is asked -/

/-- No reasoner is asked about the skeleton: the configuration does not have
    it, or the monitor is canceled, or no recorded reasoner is registered. -/
def Barred (registry : Registry) (config : ReplayConfig) (monitor : Monitor) (s : Skeleton) :
    Prop :=
  config.rerunReasoners = false ∨ monitor.Canceled ∨
    s.Every fun rule => registry.contains rule.reasoner = false

/-- What is barred at a node is barred below it. -/
theorem Barred.below {comment : String} {rule? : Option Rule} {children : List Skeleton}
    {monitor monitor' : Monitor} (h : Barred registry config monitor (.mk comment rule? children))
    (hmonitor : monitor.Canceled → monitor'.Canceled) :
    ∀ c ∈ children, Barred registry config monitor' c := by
  intro c hc
  rcases h with hoff | hcanceled | ⟨-, below⟩
  · exact .inl hoff
  · exact .inr (.inl (hmonitor hcanceled))
  · exact .inr (.inr (below c hc))

/-- Asking again comes to nothing but a poll of the monitor. -/
theorem rerun_refused {rule : Rule}
    (h : w.monitor.Canceled ∨ registry.contains rule.reasoner = false) (n : NodeId) :
    rerun registry w n rule = (.ok false, ⟨w.forest, w.monitor.poll.2⟩) := by
  rw [rerun]
  show (if w.monitor.poll.1 = true then _ else _) = _
  by_cases hpoll : w.monitor.poll.1 = true
  · rw [if_pos hpoll]
    rfl
  · rw [if_neg hpoll]
    have hunknown : registry.find? rule.reasoner = none := by
      rcases h with hcanceled | hunknown
      · exact absurd (hcanceled _ (Nat.le_refl _)) hpoll
      · rw [Registry.contains, SortedBy.hasKey_eq_isSome_find?] at hunknown
        exact Option.isNone_iff_eq_none.mp (Option.isSome_eq_false_iff.mp hunknown)
    rw [hunknown]
    rfl

/-- Where reasoners are barred and rules are reused first, one node of a
    rebuild is one of a reuse. -/
theorem rebuildStep_barred {comment : String} {rule : Rule} {children : List Skeleton}
    (hfirst : config.reuseFirst = true)
    (h : Barred registry config w.monitor (.mk comment (some rule) children)) (n : NodeId) :
    Matches w.monitor (rebuildStep registry config w n rule) (w.forest.reuseRule n rule) := by
  rcases rebuildStep_cases hfirst registry w n rule with hsame | ⟨hon, -, hrefused, hasked⟩
  · rw [hsame]
    exact .of_eq
  · have hbarred : w.monitor.Canceled ∨ registry.contains rule.reasoner = false := by
      rcases h with hoff | hcanceled | ⟨top, -⟩
      · rw [hoff] at hon
        cases hon
      · exact .inl hcanceled
      · exact .inr (top rule rfl)
    rw [hasked, rerun_refused hbarred, hrefused]
    exact ⟨rfl, rfl, Monitor.Canceled.poll⟩

/-- Where no reasoner is asked, a rebuild is a reuse, on any forest. -/
theorem rebuildNode_barred (hfirst : config.reuseFirst = true)
    (hkeep : config.keepComments = true) (h : Barred registry config w.monitor s) (n : NodeId) :
    Matches w.monitor (rebuildNode registry config w n s) (w.forest.reuseNode n s) := by
  induction s generalizing w n with
  | mk comment rule? children ih =>
      -- pairwise, each on the forest and with the monitor that the others left
      have hamong : ∀ (w : Watched) nodes, (∀ c ∈ children, Barred registry config w.monitor c) →
          Matches w.monitor (rebuildAmong registry config w nodes children)
            (w.forest.reuseAmong nodes children) := by
        clear h
        intro w nodes hbarred
        induction children generalizing w nodes with
        | nil => cases nodes <;> exact ⟨rfl, rfl, id⟩
        | cons s rest ihrest =>
            cases nodes with
            | nil => exact ⟨rfl, rfl, id⟩
            | cons node nodes =>
                obtain ⟨hs, hrest⟩ := List.forall_mem_cons.mp hbarred
                refine rebuildAmong_matches (ih s List.mem_cons_self hs node) ?_
                intro g monitor _ hmonitor
                refine ihrest (fun c hc => ih c (List.mem_cons_of_mem _ hc)) ⟨g, monitor⟩ nodes ?_
                intro c hc
                exact (hrest c hc).imp_right (Or.imp_left hmonitor)
      refine rebuildNode_matches hkeep ?_ ?_
      · intro f rule _ hrule
        subst hrule
        exact rebuildStep_barred (w := ⟨f, w.monitor⟩) hfirst h n
      · intro f g rule monitor _ _ _ hmonitor
        exact hamong ⟨g, monitor⟩ (g.childIds n) (h.below hmonitor)

/-- A reuse is a rebuild that is not to ask reasoners. -/
theorem reuse_eq_rebuild (f : Forest) (n : NodeId) (s : Skeleton) :
    f.reuse n s = f.rebuild n s .empty .never { rerunReasoners := false } := by
  refine (rebuild_eq_reuse ?_).symm
  intro tree _
  exact rebuildNode_barred (w := ⟨f.beginBatch tree, .never⟩) rfl rfl (.inl rfl) n

/-! ## Nodes that a reuse closes -/

/-- At open nodes that a replay of the skeleton closes, a rebuild is a reuse. -/
def MatchesClosed (allowed : Rule → Prop) (registry : Registry) (config : ReplayConfig)
    (s : Skeleton) : Prop :=
  ∀ {w : Watched} {n : NodeId} {t : Tree} {node : Node}, (w.forest.bench []).Wf allowed →
    w.forest.locate? n = some (t, .openNode node) →
    (regrow w.forest.slots node s).1.confidence.isClosed = true →
      Matches w.monitor (rebuildNode registry config w n s) (w.forest.reuseNode n s)

/-- The children of a node, from the first to the last.  `done` are those that
    have grown, `todo` those that are open still and will be closed. -/
theorem rebuildAmong_closed {b : Bench} {tree : TreeId} {node top : Node} {rule : Rule}
    {skipped : SkippedActions} {skeletons : List Skeleton}
    (hskeletons : ∀ s ∈ skeletons, s.Every allowed)
    (ih : ∀ s ∈ skeletons, MatchesClosed allowed registry config s) (h : b.Wf allowed)
    (located : b.locate? n = some (tree, .openNode node)) (htop : top.id = n)
    (done todo : List ProofTree) (hopen : ∀ c ∈ todo, c.isOpen = true)
    (hf : (w.forest.bench []).Wf allowed)
    (hbench : w.forest.bench [] = b.grow tree n
      ((ProofTree.applied top rule skipped (done ++ todo)).settled, w.forest.slots))
    (hclosed : ∀ c ∈ (regrowAmong w.forest.slots todo skeletons).1,
      c.confidence.isClosed = true) :
    Matches w.monitor (rebuildAmong registry config w (todo.map ProofTree.id) skeletons)
      (w.forest.reuseAmong (todo.map ProofTree.id) skeletons) := by
  -- the invariant is `hbench`: the children in `done` are regrown, those in `todo` still open
  induction skeletons generalizing w done todo with
  | nil => cases todo <;> exact ⟨rfl, rfl, id⟩
  | cons s more ihmore =>
      cases todo with
      | nil => exact ⟨rfl, rfl, id⟩
      | cons c rest =>
          have hc := hopen c List.mem_cons_self
          obtain ⟨kid, rfl⟩ : ∃ kid, c = .openNode kid := by
            cases c with
            | openNode kid => exact ⟨kid, rfl⟩
            | applied _ _ _ _ => cases hc
          obtain ⟨hs, hmore⟩ := List.forall_mem_cons.mp hskeletons
          obtain ⟨hfirst, hrest⟩ := List.forall_mem_cons.mp hclosed
          obtain ⟨⟨t, hlocate⟩, f', hrun, hf', hslots, hbench'⟩ :=
            Regrows.child (regrows hs) hs h located htop hf hbench
          refine rebuildAmong_matches (ih s List.mem_cons_self hf hlocate hfirst) ?_
          -- the forest after the child is the one that reusing leaves, monitor aside
          intro g monitor hrun' _
          cases hrun.symm.trans hrun'
          refine ihmore hmore (fun s hs => ih s (List.mem_cons_of_mem _ hs)) _ rest
            (fun c hc => hopen c (List.mem_cons_of_mem _ hc)) (w := ⟨f', monitor⟩) hf' hbench' ?_
          rw [hslots]
          exact hrest

/-- A replay that closes an open node never asks a reasoner: a rule that is
    refused would leave a node open below. -/
theorem rebuildNode_closed (hfirst : config.reuseFirst = true)
    (hkeep : config.keepComments = true) (hs : s.Every allowed) :
    MatchesClosed allowed registry config s := by
  induction hs with
  | @mk comment rule? children top below ih =>
      intro w n t node hf located hclosed
      cases rule? with
      | none =>
          refine rebuildNode_matches hkeep ?_ ?_
          · intro f rule _ hrule
            cases hrule
          · intro f g rule monitor _ hrule
            cases hrule
      | some rule =>
          cases hexpand : rule.expand node.sequent with
          | none =>
              rw [ProofTree.regrow_refused hexpand, ProofTree.not_closed_openNode] at hclosed
              cases hclosed
          | some expanded =>
              obtain ⟨sequents, skipped⟩ := expanded
              obtain ⟨f', f'', hcomment, happlied, hf'', hslots, hkids, hbench⟩ :=
                step_grow hf (top rule rfl) located comment hexpand
              -- a closed node has closed children
              rw [ProofTree.regrow_applied hexpand, ProofTree.confidence_settled,
                Confidence.isClosed, decide_eq_true_eq, ProofTree.lt_level_applied] at hclosed
              refine rebuildNode_matches hkeep ?_ ?_
              · intro f rule' hf hrule'
                cases hcomment.symm.trans hf
                cases hrule'
                rcases rebuildStep_cases hfirst registry ⟨f', w.monitor⟩ n rule with
                  hsame | ⟨-, -, hrefused, -⟩
                · rw [hsame]
                  exact .of_eq
                · cases happlied.symm.trans hrefused
              · intro f g rule' monitor hcomment' hrule' happlied' _
                cases hcomment.symm.trans hcomment'
                cases hrule'
                cases happlied.symm.trans happlied'
                rw [hkids]
                refine rebuildAmong_closed (w := ⟨f'', monitor⟩) below ih hf
                  (locate?_bench_of located [])
                  ((node.id_restored comment).trans (id_of_locate? located)) [] _ ?_ hf'' hbench ?_
                · intro c hc
                  obtain ⟨id, sequent, -, rfl⟩ := w.forest.slots.openNodes_eq sequents c hc
                  rfl
                · rw [hslots]
                  intro c hc
                  exact decide_eq_true (hclosed.2 c hc)

/-- A comment leaves the rule of a node, or that it has none. -/
theorem isOpen_restoreComment {p : ProofTree} (hf : (f.bench []).Wf allowed)
    (hnode : f.node? n = some p) (comment : String) :
    ∃ q, (f.restoreComment n comment).2.node? n = some q ∧ q.isOpen = p.isOpen := by
  obtain ⟨⟨t, p'⟩, located, rfl⟩ := Option.map_eq_some_iff.mp hnode
  rw [restoreComment]
  split
  · exact ⟨p', hnode, rfl⟩
  -- writing the comment that is there already is skipped, and so is the whole edit
  · by_cases hsame : p'.comment = comment
    · rw [setComment, located]
      dsimp only
      rw [if_pos hsame]
      exact ⟨p', hnode, rfl⟩
    · obtain ⟨-, hbench⟩ := bench_setComment hf located hsame
      have hput : (f.setComment n comment).2.bench [] = (f.bench []).grow t.id n
          ((p'.mapNode fun node => { node with comment := comment }).settled, f.slots) := hbench
      have hid : (p'.mapNode fun node => { node with comment := comment }).settled.id = n := by
        rw [ProofTree.id_settled, ← id_of_locate? located]
        cases p' <;> rfl
      obtain ⟨t', -, located'⟩ :=
        locate?_grow hf (hf.moves (setComment_moves hf n comment)) located hput hid
      refine ⟨_, by rw [node?, located']; rfl, ?_⟩
      cases p' <;> rfl

/-- At a node with a rule both replays restore the comment and leave the rest
    alone. -/
theorem rebuildNode_applied {p : ProofTree} (hfirst : config.reuseFirst = true)
    (hkeep : config.keepComments = true) (hf : (w.forest.bench []).Wf allowed)
    (hnode : w.forest.node? n = some p) (happlied : p.isOpen = false) :
    Matches w.monitor (rebuildNode registry config w n s) (w.forest.reuseNode n s) := by
  obtain ⟨comment, rule?, children⟩ := s
  obtain ⟨q, hq, hsame⟩ := isOpen_restoreComment hf hnode comment
  rw [happlied] at hsame
  refine rebuildNode_matches hkeep ?_ ?_
  · intro f rule hcomment _
    rw [hcomment] at hq
    -- a reasoner is run at open nodes only
    rcases rebuildStep_cases hfirst registry ⟨f, w.monitor⟩ n rule with
      hstep | ⟨-, ⟨q', hq', hopen⟩, -, -⟩
    · rw [hstep]
      exact .of_eq
    · cases hq.symm.trans hq'
      rw [hsame] at hopen
      cases hopen
  -- and no rule is reused at a node that has one, so nothing happens below
  · intro f g rule monitor hcomment _ hrule _
    rw [hcomment] at hq
    rw [reuseRule, nodeOrError, hq] at hrule
    dsimp only at hrule
    rw [hsame, if_neg Bool.false_ne_true] at hrule
    cases hrule

/-- **A rebuild refines a reuse.**  With recorded rules tried first and comments
    kept, a rebuild that asks no reasoner is a reuse: it leaves the same forest
    and gives the same answer.  So does any rebuild where a reuse closes the
    node. -/
theorem rebuild_refines_reuse (hf : f.Reachable) (n : NodeId) (s : Skeleton) (registry : Registry)
    (monitor : Monitor) (hfirst : config.reuseFirst = true)
    (hkeep : config.keepComments = true) :
    ((config.rerunReasoners = false ∨ monitor.Canceled ∨
        s.Every fun rule => registry.contains rule.reasoner = false) →
      f.rebuild n s registry monitor config = f.reuse n s) ∧
    ((f.reuse n s).1 = .ok true → f.rebuild n s registry monitor config = f.reuse n s) := by
  constructor
  · intro hbarred
    exact rebuild_eq_reuse fun tree _ =>
      rebuildNode_barred (w := ⟨f.beginBatch tree, monitor⟩) hfirst hkeep hbarred n
  · intro hanswer
    refine rebuild_eq_reuse fun tree htree => ?_
    have hbench := bench_beginBatch f tree []
    have hf' : ((f.beginBatch tree).bench []).Wf fun _ => True := hbench ▸ hf.wf
    rw [treeOf] at htree
    split at htree
    · rename_i t p located
      obtain ⟨t', -, located'⟩ : ∃ t', t'.id = t.id ∧
          (f.beginBatch tree).locate? n = some (t', p) :=
        exists_locate? (hbench ▸ locate?_bench_of located [])
      -- only an open node can be regrown; at the others nothing is replayed
      cases p with
      | openNode node =>
          rw [(reuse_grow s.every_true hf.wf located).1] at hanswer
          exact rebuildNode_closed (w := ⟨f.beginBatch tree, monitor⟩) hfirst hkeep s.every_true hf'
            located' (Except.ok.inj hanswer)
      | applied node rule skipped children =>
          have hnode : (f.beginBatch tree).node? n = some (.applied node rule skipped children) := by
            rw [node?, located']
            rfl
          exact rebuildNode_applied (w := ⟨f.beginBatch tree, monitor⟩) hfirst hkeep hf' hnode rfl
    · cases htree

/-- One tree with `⊤` as its goal. -/
def posed : Forest := (Forest.empty.createTree ⟨.empty, .empty, .top⟩ none).2

/-- A step of the reasoner for `⊤`, recorded for the given goal. -/
def recorded (goal : Pred) : Skeleton :=
  .mk "again" (some { Builtin.rule .trueGoal "⊤ goal" with goal := some goal }) []

/-- Recorded for `⊥` the step comes back only by asking the reasoner, which a
    canceled monitor forbids; recorded for `⊤` it comes back in either way. -/
theorem recorded_rebuilt :
    (posed.rebuild ⟨0, 0⟩ (recorded .bottom) .builtin .never {}).1 = .ok true ∧
      (posed.reuse ⟨0, 0⟩ (recorded .bottom)).1 = .ok false ∧
      posed.rebuild ⟨0, 0⟩ (recorded .bottom) .builtin .tripped {} =
        posed.reuse ⟨0, 0⟩ (recorded .bottom) ∧
      (posed.reuse ⟨0, 0⟩ (recorded .top)).1 = .ok true ∧
      posed.rebuild ⟨0, 0⟩ (recorded .top) .builtin .never {} =
        posed.reuse ⟨0, 0⟩ (recorded .top) := by
  have hplain : Sequent.WellTyped ⟨.empty, .empty, .top⟩ := by decide +kernel
  have hposed : posed.Reachable := .step (.createTree _ none) .empty hplain
  have htripped : Monitor.tripped.Canceled := fun _ _ => rfl
  have hclosed : (posed.reuse ⟨0, 0⟩ (recorded .top)).1 = .ok true := by decide +kernel
  refine ⟨by decide +kernel, by decide +kernel, ?_, hclosed, ?_⟩
  · exact (rebuild_refines_reuse hposed _ _ _ _ rfl rfl).1 (.inr (.inl htripped))
  · exact (rebuild_refines_reuse hposed _ _ _ _ rfl rfl).2 hclosed

end Forest

end SequentProver
