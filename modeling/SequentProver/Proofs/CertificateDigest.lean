import SequentProver.Proofs.Fingerprints
import SequentProver.Reuse.Dependencies

/-! # What the digest of a certificate tells

    The digest of a certificate is taken of lines for the goal, if there is
    one, the hypotheses, the typed names, the introduced names and the
    reasoners.  All but the last are written forms or valid names and stay on
    one line each.  A reasoner may be called anything, also by a text with
    line breaks, and a line inside it that starts with `reasoner:` cannot be
    told from a line of its own.

    So the bytes tell everything but the reasoners, and of these they tell the
    pieces.  They tell the whole certificate if no reasoner has such a line. -/

namespace SequentProver

namespace Dependencies

variable {d e : Dependencies}

/-- Every name in the certificate is valid, and every quantifier declares
    something; reasoners may be called anything. -/
def wellNamed (d : Dependencies) : Bool :=
  d.goal.toList.all Pred.wellNamed && d.hyps.toList.all Pred.wellNamed &&
    d.idents.toList.all TypedName.wellNamed && d.introduced.toList.all isValidName

/-- Being well named, part by part. -/
theorem wellNamed_iff : d.wellNamed = true ↔
    (∀ p ∈ d.goal.toList, p.wellNamed = true) ∧ (∀ p ∈ d.hyps.toList, p.wellNamed = true) ∧
      (∀ n ∈ d.idents.toList, n.wellNamed = true) ∧
      ∀ name ∈ d.introduced.toList, isValidName name = true := by
  simp only [wellNamed, Bool.and_eq_true, List.all_eq_true, and_assoc]

/-! ## The fields before the reasoners -/

/-- The fields before those of the reasoners. -/
def consultedFields (d : Dependencies) : List ContentField :=
  Content.fields "goal" (d.goal.toList.map Pred.text) ++
    Content.fields "hyp" (d.hyps.toList.map Pred.text) ++
    Content.fields "ident" (d.idents.toList.map TypedName.text) ++
    Content.fields "introduced" d.introduced.toList

/-- The reasoners stand at the end of the content. -/
theorem contentFields_eq (d : Dependencies) :
    d.contentFields = d.consultedFields ++ Content.fields "reasoner" d.reasoners.toList := by
  rw [contentFields, consultedFields, Content.optional_eq_fields, Option.toList_map]

/-- A field before the reasoners is on one line and is not called like one. -/
theorem oneLine_consultedFields (h : d.wellNamed = true) :
    ∀ f ∈ d.consultedFields, Content.OneLine f ∧ f.1 ≠ "reasoner" := by
  obtain ⟨hgoal, hhyps, hidents, hintroduced⟩ := wellNamed_iff.mp h
  have hfields : ∀ {name : String} {values : List String}, ':' ∉ name.toList →
      name ≠ "reasoner" → (∀ v ∈ values, OnOneLine v) →
        ∀ f ∈ Content.fields name values, Content.OneLine f ∧ f.1 ≠ "reasoner" := by
    intro name values hname hne hvalues f hf
    obtain ⟨hline, rfl⟩ := Content.oneLine_of_mem_fields hname hvalues hf
    exact ⟨hline, hne⟩
  intro f hf
  simp only [consultedFields, List.mem_append] at hf
  rcases hf with ((hf | hf) | hf) | hf
  · exact hfields (by decide) (by decide)
      (List.forall_mem_map.mpr fun p hp => Pred.onOneLine_text (hgoal p hp)) f hf
  · exact hfields (by decide) (by decide)
      (List.forall_mem_map.mpr fun p hp => Pred.onOneLine_text (hhyps p hp)) f hf
  · exact hfields (by decide) (by decide)
      (List.forall_mem_map.mpr fun n hn => TypedName.onOneLine_text (hidents n hn)) f hf
  · exact hfields (by decide) (by decide) (fun v hv => onOneLine_name (hintroduced v hv)) f hf

/-- The four names differ, so each list of values can be taken out. -/
theorem valuesOf_consultedFields (d : Dependencies) :
    Content.valuesOf "goal" d.consultedFields = d.goal.toList.map Pred.text ∧
      Content.valuesOf "hyp" d.consultedFields = d.hyps.toList.map Pred.text ∧
      Content.valuesOf "ident" d.consultedFields = d.idents.toList.map TypedName.text ∧
      Content.valuesOf "introduced" d.consultedFields = d.introduced.toList := by
  simp [consultedFields]

/-- Two certificates agree in all but their reasoners. -/
structure ConsultSame (d e : Dependencies) : Prop where
  goal : d.goal = e.goal
  hyps : d.hyps = e.hyps
  idents : d.idents = e.idents
  introduced : d.introduced = e.introduced

/-- Well-named certificates with the same lines consult the same. -/
theorem consultSame_of_fields (hd : d.wellNamed = true) (he : e.wellNamed = true)
    (h : d.consultedFields = e.consultedFields) : d.ConsultSame e := by
  obtain ⟨hdgoal, hdhyps, hdidents, -⟩ := wellNamed_iff.mp hd
  obtain ⟨hegoal, hehyps, heidents, -⟩ := wellNamed_iff.mp he
  obtain ⟨hgoal, hhyps, hidents, hintroduced⟩ := valuesOf_consultedFields d
  rw [h] at hgoal hhyps hidents hintroduced
  obtain ⟨hgoal', hhyps', hidents', hintroduced'⟩ := valuesOf_consultedFields e
  have htext : ∀ p q : Pred, p.wellNamed = true → q.wellNamed = true → p.text = q.text → p = q :=
    fun _ _ => Pred.text_inj
  refine ⟨?_, ?_, ?_, ?_⟩
  · have hlist := eq_of_map_eq htext hdgoal hegoal (hgoal.symm.trans hgoal')
    simpa using congrArg List.head? hlist
  · exact SortedBy.ext_toList (eq_of_map_eq htext hdhyps hehyps (hhyps.symm.trans hhyps'))
  · exact SortedBy.ext_toList (eq_of_map_eq (fun _ _ => TypedName.text_inj) hdidents heidents
      (hidents.symm.trans hidents'))
  · exact SortedBy.ext_toList (hintroduced.symm.trans hintroduced')

/-- Certificates that consult the same have the same lines. -/
theorem ConsultSame.fields (h : d.ConsultSame e) : d.consultedFields = e.consultedFields := by
  rw [consultedFields, consultedFields, h.goal, h.hyps, h.idents, h.introduced]

/-- If they have the same reasoners too, they are equal. -/
theorem ConsultSame.eq_of_reasoners (h : d.ConsultSame e) (hreasoners : d.reasoners = e.reasoners) :
    d = e := by
  obtain ⟨hgoal, hhyps, hidents, hintroduced⟩ := h
  cases d
  cases e
  cases hgoal
  cases hhyps
  cases hidents
  cases hintroduced
  cases hreasoners
  rfl

/-! ## The reasoners -/

/-- What the lines of the reasoners look like. -/
def reasonerPieces (d : Dependencies) : List (List Char) :=
  d.reasoners.toList.flatMap fun id => Content.pieces "reasoner" id.toList

/-- No line of a reasoner looks like another reasoner, the first apart. -/
def PlainReasoners (d : Dependencies) : Prop :=
  ∀ id ∈ d.reasoners.toList, Content.Unbroken "reasoner" id.toList

instance : Decidable d.PlainReasoners := inferInstanceAs (Decidable (∀ id ∈ _, _))

/-- The characters of the content, with the reasoners as one block. -/
theorem chars_contentFields (d : Dependencies) :
    d.contentFields.flatMap Content.lineChars = d.consultedFields.flatMap Content.lineChars ++
      Content.block "reasoner" (d.reasoners.toList.map String.toList) := by
  rw [contentFields_eq, List.flatMap_append, Content.flatMap_fields]

/-- Two blocks of reasoners are the same text if they fall into the same
    pieces. -/
theorem block_reasoners_eq_iff :
    Content.block "reasoner" (d.reasoners.toList.map String.toList) =
        Content.block "reasoner" (e.reasoners.toList.map String.toList) ↔
      d.reasonerPieces = e.reasonerPieces := by
  rw [Content.block_eq_iff (by decide), List.flatMap_map, List.flatMap_map]
  rfl

/-- The bytes tell what is consulted and the pieces of the reasoners. -/
theorem bytes_eq_iff (hd : d.wellNamed = true) (he : e.wellNamed = true) :
    Content.bytes d.contentFields = Content.bytes e.contentFields ↔
      d.ConsultSame e ∧ d.reasonerPieces = e.reasonerPieces := by
  rw [Content.bytes_eq_iff, chars_contentFields, chars_contentFields]
  constructor
  · intro h
    have hdlines := oneLine_consultedFields hd
    have helines := oneLine_consultedFields he
    -- what is consulted ends where the first line of a reasoner starts
    obtain ⟨hfields, hblock⟩ := Content.eq_of_lines (fun f hf => (hdlines f hf).1)
      (fun f hf => (helines f hf).1)
      (fun f hf hlead => (helines f hf).2
        (Content.name_of_front_line (helines f hf).1 (by decide) hlead))
      (fun f hf hlead => (hdlines f hf).2
        (Content.name_of_front_line (hdlines f hf).1 (by decide) hlead)) h
    exact ⟨consultSame_of_fields hd he hfields, block_reasoners_eq_iff.mp hblock⟩
  · rintro ⟨hsame, hpieces⟩
    rw [hsame.fields, block_reasoners_eq_iff.mpr hpieces]

/-- Plain reasoners are told by their pieces. -/
theorem reasoners_of_pieces (hd : d.PlainReasoners) (he : e.PlainReasoners)
    (h : d.reasonerPieces = e.reasonerPieces) : d.reasoners = e.reasoners := by
  have hchars : d.reasoners.toList.map String.toList = e.reasoners.toList.map String.toList :=
    Content.eq_of_block (by decide) (List.forall_mem_map.mpr hd) (List.forall_mem_map.mpr he)
      (block_reasoners_eq_iff.mpr h)
  exact SortedBy.ext_toList
    (eq_of_map_eq (fun _ _ _ _ => String.toList_inj.mp) (fun _ _ => trivial) (fun _ _ => trivial)
      hchars)

/-- The bytes behind the digest of a certificate tell goal, hypotheses, typed
    names and introduced names, whatever the reasoners are called.  Of the
    reasoners they tell the pieces, and so the whole certificate if no reasoner
    has a line that looks like another one. -/
theorem digest_separates (hd : d.wellNamed = true) (he : e.wellNamed = true) :
    (Content.bytes d.contentFields = Content.bytes e.contentFields ↔
        d.ConsultSame e ∧ d.reasonerPieces = e.reasonerPieces) ∧
      (d.PlainReasoners → e.PlainReasoners →
        (Content.bytes d.contentFields = Content.bytes e.contentFields ↔ d = e) ∧
          (d.digest = e.digest → d = e ∨
            Sha256.Collide (Content.bytes d.contentFields) (Content.bytes e.contentFields))) := by
  refine ⟨bytes_eq_iff hd he, ?_⟩
  intro hdplain heplain
  have hbytes : Content.bytes d.contentFields = Content.bytes e.contentFields → d = e := by
    intro h
    obtain ⟨hsame, hpieces⟩ := (bytes_eq_iff hd he).mp h
    exact hsame.eq_of_reasoners (reasoners_of_pieces hdplain heplain hpieces)
  refine ⟨⟨hbytes, fun h => by rw [h]⟩, ?_⟩
  intro h
  exact (Content.bytes_eq_or_collide h).imp_left hbytes

/-- One reasoner whose name has a line that looks like a second one: the bytes
    are those of the two.  Where the line looks like nothing, they differ. -/
theorem glued_reasoners_collide :
    let two : Dependencies := { reasoners := SortedBy.ofList ["a", "b"] }
    let glued : Dependencies := { reasoners := SortedBy.ofList ["a\nreasoner:b"] }
    let broken : Dependencies := { reasoners := SortedBy.ofList ["a\nb"] }
    two ≠ glued ∧ Content.bytes two.contentFields = Content.bytes glued.contentFields ∧
      two.digest = glued.digest ∧
      Content.bytes two.contentFields ≠ Content.bytes broken.contentFields := by
  intro two glued broken
  have hglued : Content.bytes two.contentFields = Content.bytes glued.contentFields :=
    (digest_separates (by decide +kernel) (by decide +kernel)).1.mpr
      ⟨⟨rfl, rfl, rfl, rfl⟩, by decide +kernel⟩
  refine ⟨by decide +kernel, hglued, ?_, ?_⟩
  · exact congrArg (fun bytes => Sha256.hex (Sha256.hash bytes)) hglued
  · intro h
    have hsame := ((digest_separates (by decide +kernel) (by decide +kernel)).2
      (by decide +kernel) (by decide +kernel)).1.mp h
    exact absurd hsame (by decide +kernel)

end Dependencies

end SequentProver
