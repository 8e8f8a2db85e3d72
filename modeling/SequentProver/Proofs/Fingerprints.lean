import SequentProver.Proofs.ContentLines
import SequentProver.Proofs.RoundTrip
import SequentProver.Proofs.SequentEquality

/-! # What a fingerprint tells

    The fingerprint of a sequent is taken of lines: one for each bound name,
    one for each hypothesis under the word for its standing, and one for the
    goal.  With valid names throughout, no written form has a line break and
    none stands for two formulas, so the lines tell the sequent, but for the
    origins of its hypotheses, which do not count.  What is left is the hash.

    Route:
    1. written forms stay on one line;
    2. written forms tell the formula;
    3. the fields of a sequent tell the sequent. -/

namespace SequentProver

/-! ## Written forms on one line -/

/-- The text has no line break. -/
def OnOneLine (s : String) : Prop := '\n' ∉ s.toList

instance (s : String) : Decidable (OnOneLine s) := inferInstanceAs (Decidable (¬ _))

section OnOneLine

variable {a b : String}

/-- Texts on one line, one after the other, are on one line. -/
theorem OnOneLine.append (ha : OnOneLine a) (hb : OnOneLine b) : OnOneLine (a ++ b) := by
  rw [OnOneLine, String.toList_append, List.mem_append]
  exact fun h => h.elim ha hb

/-- Parentheses do not break a line. -/
theorem OnOneLine.parenthesized (ha : OnOneLine a) (needed : Bool) :
    OnOneLine (Expr.parenthesized needed a) := by
  rw [Expr.parenthesized]
  split
  · exact (OnOneLine.append (by decide) ha).append (by decide)
  · exact ha

theorem OnOneLine.joined {sep : String} (hsep : OnOneLine sep) {texts : List String}
    (h : ∀ t ∈ texts, OnOneLine t) : OnOneLine (Text.joined sep texts) := by
  induction texts with
  | nil => exact List.not_mem_nil
  | cons t rest ih =>
      have ht := h t List.mem_cons_self
      cases rest with
      | nil => exact ht
      | cons u rest =>
          exact (ht.append hsep).append (ih fun v hv => h v (List.mem_cons_of_mem _ hv))

end OnOneLine

/-- A valid name has only the characters of names. -/
theorem not_mem_of_isValidName {name : String} (h : isValidName name = true) {c : Char}
    (hc : isNameChar c = false) : c ∉ name.toList := by
  obtain ⟨hshape, -⟩ := isValidName_iff.mp h
  intro hmem
  cases hchars : name.toList with
  | nil =>
      rw [hchars] at hmem
      exact List.not_mem_nil hmem
  | cons d rest =>
      rw [hchars, isNameShaped, Bool.and_eq_true, List.all_eq_true] at hshape
      have hchar : isNameChar c = true := by
        rw [hchars] at hmem
        rcases List.mem_cons.mp hmem with rfl | hmem
        · exact isNameChar_of_isNameStart hshape.1
        · exact hshape.2 c hmem
      rw [hc] at hchar
      cases hchar

theorem onOneLine_name {name : String} (h : isValidName name = true) : OnOneLine name :=
  not_mem_of_isValidName h (by decide)

theorem onOneLine_decimal (n : Int) : OnOneLine (Text.decimal n) := by
  have hrepr : OnOneLine (Nat.repr n.natAbs) := by
    intro hmem
    exact absurd (isDigit_of_mem_repr hmem) (by decide)
  rw [Text.decimal]
  split
  · exact OnOneLine.append (by decide) hrepr
  · exact hrepr

/-- The text of a type with valid names is on one line. -/
theorem Ty.onOneLine_text {t : Ty} (h : t.wellNamed = true) : OnOneLine t.text := by
  induction t with
  | integer => decide
  | boolean => decide
  | given name => exact onOneLine_name h
  | powerSet elem ih => exact (OnOneLine.append (by decide) (ih h)).append (by decide)
  | product left right ihl ihr =>
      obtain ⟨hl, hr⟩ := Bool.and_eq_true_iff.mp h
      exact (((ihl hl).parenthesized left.isProduct).append (by decide)).append (ihr hr)

theorem TypedName.onOneLine_text {n : TypedName} (h : n.wellNamed = true) : OnOneLine n.text := by
  obtain ⟨hname, hty⟩ := Bool.and_eq_true_iff.mp h
  exact ((onOneLine_name hname).append (by decide)).append (Ty.onOneLine_text hty)

theorem Expr.onOneLine_text {e : Expr} (h : e.wellNamed = true) : OnOneLine e.text := by
  induction e with
  | ident name => exact onOneLine_name h
  | integer value => exact onOneLine_decimal _
  | bool value => cases value <;> decide
  | neg inner ih => exact OnOneLine.append (by decide) ((ih h).parenthesized _)
  | arith op left right ihl ihr =>
      obtain ⟨hl, hr⟩ := Bool.and_eq_true_iff.mp h
      have hop : OnOneLine op.symbol := by cases op <;> decide
      exact (((ihl hl).parenthesized _).append hop).append ((ihr hr).parenthesized _)

theorem Pred.onOneLine_text {p : Pred} (h : p.wellNamed = true) : OnOneLine p.text := by
  induction p with
  | top => decide
  | bottom => decide
  | not inner ih => exact OnOneLine.append (by decide) ((ih h).parenthesized _)
  | binary op left right ihl ihr =>
      obtain ⟨hl, hr⟩ := Bool.and_eq_true_iff.mp h
      have hop : OnOneLine op.symbol := by cases op <;> decide
      have hblank : OnOneLine " " := by decide
      exact (((((ihl hl).parenthesized _).append hblank).append hop).append hblank).append
        ((ihr hr).parenthesized _)
  | relation op left right =>
      obtain ⟨hl, hr⟩ := Bool.and_eq_true_iff.mp h
      have hop : OnOneLine op.symbol := by cases op <;> decide
      exact ((Expr.onOneLine_text hl).append hop).append (Expr.onOneLine_text hr)
  | quantified q decls body ih =>
      simp only [Pred.wellNamed, Bool.and_eq_true] at h
      obtain ⟨⟨-, hdecls⟩, hbody⟩ := h
      have hq : OnOneLine q.symbol := by cases q <;> decide
      -- the declarations are on one line if each name and each type is
      have hjoined : OnOneLine
          (Text.joined "," (decls.map fun d => d.name ++ ":" ++ d.ty.text)) := by
        refine OnOneLine.joined (by decide) ?_
        intro t ht
        obtain ⟨d, hd, rfl⟩ := List.mem_map.mp ht
        obtain ⟨hname, hty⟩ := Bool.and_eq_true_iff.mp (List.all_eq_true.mp hdecls d hd)
        exact ((onOneLine_name hname).append (by decide)).append (Ty.onOneLine_text hty)
      exact ((hq.append hjoined).append (by decide)).append (ih hbody)

/-! ## Written forms tell the formula -/

/-- What is read from a text is one value. -/
theorem eq_of_read {α ε : Type} {parse : String → Except ε α} {a b : α} {x y : String}
    (ha : parse x = .ok a) (hb : parse y = .ok b) (h : x = y) : a = b := by
  rw [h, hb] at ha
  exact (Except.ok.inj ha).symm

/-- Types with valid names are known by their texts. -/
theorem Ty.text_inj {t u : Ty} (ht : t.wellNamed = true) (hu : u.wellNamed = true)
    (h : t.text = u.text) : t = u :=
  eq_of_read (Ty.parse_text ht) (Ty.parse_text hu) h

theorem Pred.text_inj {p q : Pred} (hp : p.wellNamed = true) (hq : q.wellNamed = true)
    (h : p.text = q.text) : p = q :=
  eq_of_read (Pred.parse_text hp) (Pred.parse_text hq) h

/-- The name ends at the colon. -/
theorem TypedName.text_inj {m n : TypedName} (hm : m.wellNamed = true) (hn : n.wellNamed = true)
    (h : m.text = n.text) : m = n := by
  obtain ⟨hmname, hmty⟩ := Bool.and_eq_true_iff.mp hm
  obtain ⟨hnname, hnty⟩ := Bool.and_eq_true_iff.mp hn
  have hchars : ∀ k : TypedName, k.text.toList = k.name.toList ++ ':' :: ' ' :: k.ty.text.toList := by
    intro k
    simp [TypedName.text]
  have hsplit := congrArg String.toList h
  rw [hchars, hchars] at hsplit
  obtain ⟨hname, htail⟩ := Content.append_cons_inj
    (not_mem_of_isValidName hmname (by decide)) (not_mem_of_isValidName hnname (by decide)) hsplit
  have hty : m.ty = n.ty :=
    Ty.text_inj hmty hnty (String.toList_inj.mp (List.cons.inj htail).2)
  cases m
  cases n
  cases String.toList_inj.mp hname
  cases hty
  rfl

/-- Lists are told by what tells their members. -/
theorem eq_of_map_eq {α β : Type} {f : α → β} {good : α → Prop}
    (hinj : ∀ a b, good a → good b → f a = f b → a = b) {l m : List α} (hl : ∀ a ∈ l, good a)
    (hm : ∀ a ∈ m, good a) (h : l.map f = m.map f) : l = m := by
  induction l generalizing m with
  | nil => exact (List.map_eq_nil_iff.mp h.symm).symm
  | cons a l ih =>
      cases m with
      | nil => cases h
      | cons b m =>
          obtain ⟨hab, hrest⟩ := List.cons.inj h
          rw [hinj a b (hl a List.mem_cons_self) (hm b List.mem_cons_self) hab,
            ih (fun x hx => hl x (List.mem_cons_of_mem _ hx))
              (fun x hx => hm x (List.mem_cons_of_mem _ hx)) hrest]

/-! ## Sequents -/

/-- Standings are known by their tags. -/
theorem Standing.tag_inj {a b : Standing} (h : a.tag = b.tag) : a = b := by
  cases a <;> cases b <;> first | rfl | exact absurd h (by decide)

namespace Sequent

variable {s t : Sequent}

/-- Every name in the sequent is valid, and every quantifier declares
    something. -/
def wellNamed (s : Sequent) : Bool :=
  s.env.bindings.toList.all TypedName.wellNamed && s.hyps.toList.all (fun h => h.pred.wellNamed) &&
    s.goal.wellNamed

/-- Being well named, part by part. -/
theorem wellNamed_iff : s.wellNamed = true ↔
    (∀ n ∈ s.env.bindings.toList, n.wellNamed = true) ∧
      (∀ h ∈ s.hyps.toList, h.pred.wellNamed = true) ∧ s.goal.wellNamed = true := by
  rw [wellNamed, Bool.and_eq_true, Bool.and_eq_true, List.all_eq_true, List.all_eq_true, and_assoc]

/-- With valid names, no binding is left out. -/
theorem idents_eq (h : ∀ n ∈ s.env.bindings.toList, n.wellNamed = true) :
    s.env.idents = s.env.bindings.toList := by
  refine List.filter_eq_self.mpr ?_
  intro n hn
  exact (Bool.and_eq_true_iff.mp (h n hn)).1

/-- The predicates of the entries are well named. -/
theorem wellNamed_of_mem_entries (h : s.wellNamed = true) :
    ∀ e ∈ s.entries, e.1.wellNamed = true := by
  intro e he
  obtain ⟨x, hx, rfl⟩ := List.mem_map.mp he
  exact (wellNamed_iff.mp h).2.1 x hx

/-- A well-named sequent has a content of single lines. -/
theorem oneLine_contentFields (h : s.wellNamed = true) :
    ∀ f ∈ s.contentFields, Content.OneLine f := by
  obtain ⟨henv, -, hgoal⟩ := wellNamed_iff.mp h
  intro f hf
  rw [contentFields_eq_entries, List.mem_append, List.mem_append] at hf
  rcases hf with (hf | hf) | hf
  · rw [idents_eq henv] at hf
    have htexts := List.forall_mem_map.mpr fun n hn => TypedName.onOneLine_text (henv n hn)
    exact (Content.oneLine_of_mem_fields (by decide) htexts hf).1
  · obtain ⟨e, he, rfl⟩ := List.mem_map.mp hf
    have htag : ':' ∉ e.2.tag.toList := by cases e.2 <;> decide
    exact Content.oneLine_mk htag (Pred.onOneLine_text (wellNamed_of_mem_entries h e he))
  · rw [List.mem_singleton.mp hf]
    exact Content.oneLine_mk (by decide) (Pred.onOneLine_text hgoal)

/-- No standing is called "env". -/
theorem valuesOf_env (idents : List String) (entries : List (Pred × Standing)) :
    Content.valuesOf "env"
      (Content.fields "env" idents ++ entries.map fun e => (e.2.tag, e.1.text)) = idents := by
  have htags : Content.valuesOf "env" (entries.map fun e => (e.2.tag, e.1.text)) = [] := by
    rw [Content.valuesOf, List.map_eq_nil_iff, List.filter_eq_nil_iff]
    intro f hf
    obtain ⟨e, -, rfl⟩ := List.mem_map.mp hf
    have htag : e.2.tag ≠ "env" := by cases e.2 <;> decide
    exact fun h => htag (of_decide_eq_true h)
  rw [Content.valuesOf_append, Content.valuesOf_fields, if_pos rfl, htags, List.append_nil]

/-- The fields tell environment, entries and goal. -/
theorem sameAs_of_contentFields (hs : s.wellNamed = true) (ht : t.wellNamed = true)
    (h : s.contentFields = t.contentFields) : s.sameAs t = true := by
  obtain ⟨hsenv, -, hsgoal⟩ := wellNamed_iff.mp hs
  obtain ⟨htenv, -, htgoal⟩ := wellNamed_iff.mp ht
  rw [contentFields_eq_entries, contentFields_eq_entries] at h
  obtain ⟨hfront, hlast⟩ := List.append_inj' h rfl
  have hgoal : s.goal = t.goal :=
    Pred.text_inj hsgoal htgoal (Prod.mk.inj (List.cons.inj hlast).1).2
  -- the fields are told apart by their keys: first the names, then the hypotheses
  have hidents : s.env.idents.map TypedName.text = t.env.idents.map TypedName.text := by
    have hvalues := congrArg (Content.valuesOf "env") hfront
    rwa [valuesOf_env, valuesOf_env] at hvalues
  have henv : s.env = t.env := by
    rw [idents_eq hsenv, idents_eq htenv] at hidents
    have hbindings := eq_of_map_eq (fun _ _ hm hn => TypedName.text_inj hm hn) hsenv htenv hidents
    exact congrArg TypeEnv.mk (SortedBy.ext_toList hbindings)
  have hentries : s.entries = t.entries := by
    rw [hidents] at hfront
    refine eq_of_map_eq ?_ (wellNamed_of_mem_entries hs) (wellNamed_of_mem_entries ht)
      (List.append_cancel_left hfront)
    intro d e hd he hde
    obtain ⟨htag, htext⟩ := Prod.mk.inj hde
    exact Prod.ext (Pred.text_inj hd he htext) (Standing.tag_inj htag)
  exact sameAs_iff_entries.mpr ⟨hgoal, henv, hentries⟩

/-- The bytes behind a fingerprint tell sequents apart, and only sequents that
    are not the same.  So two sequents that have one fingerprint are the same,
    or their bytes are two messages with one hash. -/
theorem fingerprint_separates (hs : s.wellNamed = true) (ht : t.wellNamed = true) :
    (Content.bytes s.contentFields = Content.bytes t.contentFields ↔ s.sameAs t = true) ∧
      (s.fingerprint = t.fingerprint → s.sameAs t = true ∨
        Sha256.Collide (Content.bytes s.contentFields) (Content.bytes t.contentFields)) := by
  have hbytes : Content.bytes s.contentFields = Content.bytes t.contentFields →
      s.sameAs t = true := by
    intro h
    exact sameAs_of_contentFields hs ht
      (Content.eq_of_bytes (oneLine_contentFields hs) (oneLine_contentFields ht) h)
  refine ⟨⟨hbytes, fun h => by rw [contentFields_of_sameAs h]⟩, ?_⟩
  intro h
  exact (Content.bytes_eq_or_collide h).imp_left hbytes

/-- Two hypotheses over a name, one of them hidden and then shown, or given and
    then derived. -/
def twoHyps (origin : Origin) (standing : Standing) : Sequent :=
  ⟨⟨SortedBy.ofList [⟨"x", .integer⟩]⟩,
    SortedBy.ofList [⟨.relation .eq (.ident "x") (.integer (-1)), .given, .selected⟩,
      ⟨.quantified .universal [⟨"y", .given "S"⟩] .top, origin, standing⟩], .bottom⟩

theorem twoHyps_separated :
    (∀ origin standing, (twoHyps origin standing).wellNamed = true) ∧
      Content.bytes (twoHyps .given .hidden).contentFields ≠
        Content.bytes (twoHyps .given .plain).contentFields ∧
      Content.bytes (twoHyps .given .hidden).contentFields =
        Content.bytes (twoHyps .derived .hidden).contentFields := by
  have hnamed : ∀ origin standing, (twoHyps origin standing).wellNamed = true := by
    intro origin standing
    cases origin <;> cases standing <;> decide +kernel
  refine ⟨hnamed, ?_, ?_⟩
  · intro h
    have hsame := (fingerprint_separates (hnamed _ _) (hnamed _ _)).1.mp h
    exact absurd hsame (by decide +kernel)
  · exact (fingerprint_separates (hnamed _ _) (hnamed _ _)).1.mpr (by decide +kernel)

end Sequent

end SequentProver
