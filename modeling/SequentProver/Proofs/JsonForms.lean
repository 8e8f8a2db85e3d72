import SequentProver.Json.Dependencies
import SequentProver.Json.Forest
import SequentProver.Json.Replay
import SequentProver.Proofs.TreeShape

/-! # Forms that are written and read

    What is written as a JSON value is read back.  A reader takes more than
    what is written: records as arrays, fields left out, sets in any order and
    with repetitions.  Whatever it takes, writing the result and reading it
    again gives the same.

    Route:
    1. a collection is rebuilt from its own list;
    2. readers undo writers for fields, lists, sets and optional values: these
       are rules for `simp`, and so are the forms as they are reached;
    3. formulas, for either way to say that nothing goes with a constant;
    4. environments, rules, skeletons, dependencies, configurations;
    5. deltas, whose handles have to fit the format. -/

namespace SequentProver

/-! ## Collections from their lists -/

section SortedBy

variable {α κ : Type} [Ord κ] {key : α → κ}

/-- What is above everything goes to the end. -/
theorem insertBy_last [Std.OrientedOrd κ] {a : α} {l : List α}
    (h : ∀ b ∈ l, compare (key b) (key a) = .lt) : insertBy key a l = l ++ [a] := by
  induction l with
  | nil => rfl
  | cons b rest ih =>
      rw [insertBy, Std.OrientedCmp.gt_of_lt (h b List.mem_cons_self)]
      exact congrArg (List.cons b) (ih fun c hc => h c (List.mem_cons_of_mem _ hc))

variable [Std.TransOrd κ] [Std.LawfulEqOrd κ]

/-- What continues the list in order is appended. -/
theorem SortedBy.toList_insertAll {s : SortedBy key} {l : List α}
    (h : IncreasingBy key (s.toList ++ l)) : (s.insertAll l).toList = s.toList ++ l := by
  induction l generalizing s with
  | nil => exact (List.append_nil _).symm
  | cons a rest ih =>
      have hlast : (s.insert a).toList = s.toList ++ [a] :=
        insertBy_last fun b hb => (List.pairwise_append.mp h).2.2 b hb a List.mem_cons_self
      -- so the list so far and the rest are still the whole
      have happend : s.toList ++ a :: rest = (s.insert a).toList ++ rest := by
        rw [hlast, List.append_assoc]
        rfl
      rw [happend] at h ⊢
      exact ih h

/-- A collection is rebuilt from its own list. -/
@[simp]
theorem SortedBy.ofList_toList (s : SortedBy key) : SortedBy.ofList s.toList = s :=
  ext_toList (toList_insertAll (s := empty) s.sorted)

end SortedBy

namespace Json

variable {α : Type} {toJson : α → Json} {ofJson? : Json → Option α} {name other : String}
  {fields : List (String × Json)} {j : Json}

/-! ## Fields, lists and sets -/

@[simp]
theorem record?_obj (names : List String) (least : Nat) (fields : List (String × Json)) :
    record? names least (.obj fields) = some fields :=
  rfl

@[simp]
theorem field?_head : field? ((name, j) :: fields) name ofJson? = ofJson? j := by
  rw [field?, List.lookup_cons_self]
  rfl

@[simp]
theorem field?_tail (h : name ≠ other) :
    field? ((other, j) :: fields) name ofJson? = field? fields name ofJson? := by
  rw [field?, field?, List.lookup_cons, beq_eq_false_iff_ne.mpr h]

@[simp]
theorem fieldOr?_head {absent : α} :
    fieldOr? ((name, j) :: fields) name absent ofJson? = ofJson? j := by
  rw [fieldOr?, List.lookup_cons_self]

@[simp]
theorem fieldOr?_tail {absent : α} (h : name ≠ other) :
    fieldOr? ((other, j) :: fields) name absent ofJson? =
      fieldOr? fields name absent ofJson? := by
  rw [fieldOr?, fieldOr?, List.lookup_cons, beq_eq_false_iff_ne.mpr h]

@[simp]
theorem str?_str (s : String) : str? (.str s) = some s := rfl

@[simp]
theorem bool?_bool (b : Bool) : bool? (.bool b) = some b := rfl

/-- A number within the bounds is read. -/
theorem intBetween?_int {lo hi n : Int} (hlo : lo ≤ n) (hhi : n ≤ hi) :
    intBetween? lo hi (.int n) = some n :=
  if_pos ⟨hlo, hhi⟩

/-- What is written item by item is read back item by item. -/
theorem mapM_map {β : Type} {write : α → β} {read : β → Option α} {l : List α}
    (h : ∀ a ∈ l, read (write a) = some a) : (l.map write).mapM read = some l := by
  induction l with
  | nil => rfl
  | cons a rest ih =>
      rw [List.map_cons, List.mapM_cons, h a List.mem_cons_self,
        ih fun b hb => h b (List.mem_cons_of_mem _ hb)]
      rfl

/-- Children are written and read by functions of their own, which go down
    the list in step with those for one child. -/
theorem readAll_writeAll {readAll : List Json → Option (List α)} {writeAll : List α → List Json}
    (writeNil : writeAll [] = []) (writeCons : ∀ a l, writeAll (a :: l) = toJson a :: writeAll l)
    (readNil : readAll [] = some [])
    (readCons : ∀ j js, readAll (j :: js) = do
      let a ← ofJson? j
      let l ← readAll js
      return a :: l)
    {l : List α} (h : ∀ a ∈ l, ofJson? (toJson a) = some a) : readAll (writeAll l) = some l := by
  induction l with
  | nil => rw [writeNil, readNil]
  | cons a rest ih =>
      rw [writeCons, readCons, h a List.mem_cons_self, ih fun b hb => h b (List.mem_cons_of_mem _ hb)]
      rfl

section RoundTrip

variable (h : ∀ a, ofJson? (toJson a) = some a)
include h

/-- A list is read back if its items are. -/
@[simp]
theorem list?_ofList (l : List α) : (ofList toJson l).list? ofJson? = some l :=
  mapM_map fun a _ => h a

/-- A set is read from any listing of its elements. -/
theorem set?_ofList [Ord α] [Std.TransOrd α] [Std.LawfulEqOrd α] (l : List α) :
    (ofList toJson l).set? ofJson? = some (SortedBy.ofList l) := by
  rw [set?, list?_ofList h]
  rfl

/-- A set is read back. -/
@[simp]
theorem set?_ofSet [Ord α] [Std.TransOrd α] [Std.LawfulEqOrd α] (s : SortedSet α) :
    (ofSet toJson s).set? ofJson? = some s := by
  rw [ofSet, set?_ofList h, SortedBy.ofList_toList]

/-- Only the absent value is written as `null`. -/
@[simp]
theorem option?_ofOption (hnull : ∀ a, toJson a ≠ .null) (o : Option α) :
    (ofOption toJson o).option? ofJson? = some o := by
  cases o with
  | none => rfl
  | some a =>
      rw [ofOption, option?.eq_2 _ _ (hnull a), h]
      rfl

/-- A field that may be missing is read back, if no value looks like a missing
    one. -/
@[simp]
theorem optionalField?_head (hnull : ∀ a, toJson a ≠ .null) (o : Option α) :
    optionalField? ((name, ofOption toJson o) :: fields) name ofJson? = some o := by
  rw [optionalField?, fieldOr?_head, option?_ofOption h hnull]

end RoundTrip

@[simp]
theorem optionalField?_tail (h : name ≠ other) :
    optionalField? ((other, j) :: fields) name ofJson? =
      optionalField? fields name ofJson? :=
  fieldOr?_tail h

end Json

/-! ## Formulas -/

section Formula

variable (absence : Json.Absence)

@[simp]
theorem Ty.ofJsonWith?_toJson (t : Ty) : Ty.ofJsonWith? absence t.toJson = some t := by
  induction t with
  | integer => rfl
  | boolean => rfl
  | given name => rfl
  | powerSet elem ih =>
      rw [toJson, ofJsonWith?, ih]
      rfl
  | product left right ihl ihr => rw [toJson, ofJsonWith?, ihl, ihr]

/-- A name with its type is read back. -/
@[simp]
theorem TypedName.ofJsonWith?_toJson (n : TypedName) :
    TypedName.ofJsonWith? absence n.toJson = some n := by
  simp [toJson, ofJsonWith?]

@[simp]
theorem ArithOp.ofJsonWith?_toJson (op : ArithOp) :
    ArithOp.ofJsonWith? absence op.toJson = some op := by
  cases op <;> rfl

@[simp]
theorem Connective.ofJsonWith?_toJson (op : Connective) :
    Connective.ofJsonWith? absence op.toJson = some op := by
  cases op <;> rfl

@[simp]
theorem Relation.ofJsonWith?_toJson (op : Relation) :
    Relation.ofJsonWith? absence op.toJson = some op := by
  cases op <;> rfl

@[simp]
theorem Quantifier.ofJsonWith?_toJson (q : Quantifier) :
    Quantifier.ofJsonWith? absence q.toJson = some q := by
  cases q <;> rfl

/-- A literal fits into 64 bits, so it is read back. -/
@[simp]
theorem Json.int64?_int (value : Int64) : (Json.int value.toInt).int64? = some value := by
  rw [int64?, intBetween?_int value.minValue_le_toInt value.toInt_le, Option.map_some,
    Int64.ofInt_toInt]

/-- An expression is read back, by induction. -/
@[simp]
theorem Expr.ofJsonWith?_toJson (e : Expr) : Expr.ofJsonWith? absence e.toJson = some e := by
  induction e with
  | ident name => rfl
  | integer value =>
      rw [toJson, ofJsonWith?, Json.int64?_int]
      rfl
  | bool value => rfl
  | neg inner ih =>
      rw [toJson, ofJsonWith?, ih]
      rfl
  | arith op left right ihl ihr =>
      rw [toJson, ofJsonWith?, ArithOp.ofJsonWith?_toJson, ihl, ihr]

/-- A predicate is read back, by induction. -/
@[simp]
theorem Pred.ofJsonWith?_toJson (p : Pred) : Pred.ofJsonWith? absence p.toJson = some p := by
  induction p with
  | top => rfl
  | bottom => rfl
  | not inner ih =>
      rw [toJson, ofJsonWith?, ih]
      rfl
  | binary op left right ihl ihr =>
      rw [toJson, ofJsonWith?, Connective.ofJsonWith?_toJson, ihl, ihr]
  | relation op left right =>
      rw [toJson, ofJsonWith?, Relation.ofJsonWith?_toJson, Expr.ofJsonWith?_toJson,
        Expr.ofJsonWith?_toJson]
  | quantified quantifier decls body ih =>
      -- the declarations are a list of parts that are no predicates
      have hdecls := Json.list?_ofList (TypedName.ofJsonWith?_toJson absence) decls
      rw [Json.ofList] at hdecls
      rw [toJson, ofJsonWith?, Quantifier.ofJsonWith?_toJson, hdecls, ih]

end Formula

@[simp]
theorem Ty.ofJson?_toJson (t : Ty) : Ty.ofJson? t.toJson = some t :=
  Ty.ofJsonWith?_toJson .null t

@[simp]
theorem TypedName.ofJson?_toJson (n : TypedName) : TypedName.ofJson? n.toJson = some n :=
  TypedName.ofJsonWith?_toJson .null n

@[simp]
theorem Pred.ofJson?_toJson (p : Pred) : Pred.ofJson? p.toJson = some p :=
  Pred.ofJsonWith?_toJson .null p

/-- The form of a predicate is never that of a missing value. -/
@[simp]
theorem Pred.toJson_ne_null (p : Pred) : p.toJson ≠ .null := by
  cases p <;> exact nofun

/-! ## Environments -/

namespace TypeEnv

/-- Bindings are read back from their object. -/
theorem bindingsOfJson?_obj (bindings : SortedBy TypedName.name) :
    bindingsOfJson? (.obj (bindings.toList.map fun n => (n.name, n.ty.toJson))) =
      some bindings := by
  rw [bindingsOfJson?, Json.mapM_map]
  · exact congrArg some bindings.ofList_toList
  · intro n _
    rw [Ty.ofJson?_toJson]
    rfl

theorem ofJson?_toJson (env : TypeEnv) : ofJson? env.toJson = some env := by
  simp [toJson, ofJson?, bindingsOfJson?_obj]

end TypeEnv

/-! ## Rules -/

@[simp]
theorem Confidence.ofJson?_toJson (c : Confidence) : Confidence.ofJson? c.toJson = some c := by
  rw [toJson, ofJson?, value, Json.intBetween?_int c.level.minValue_le_toInt c.level.toInt_le,
    Option.map_some, Int32.ofInt_toInt]

/-- Skipped actions are read back row by row. -/
theorem SkippedActions.ofJson?_toJson (s : SkippedActions) :
    SkippedActions.ofJson? s.toJson = some s := by
  rw [toJson, ofJson?, Json.list?_ofList (Json.list?_ofList Json.bool?_bool)]
  rfl

/-- An input is read back by its kind. -/
@[simp]
theorem Input.ofJson?_toJson (input : Input) : Input.ofJson? input.toJson = some input := by
  cases input with
  | empty => rfl
  | predicate p =>
      -- the kind picks the reader of the value
      show (Pred.ofJson? p.toJson).map Input.predicate = _
      rw [Pred.ofJson?_toJson]
      rfl
  | predicates ps =>
      show ((Json.ofList Pred.toJson ps).list? Pred.ofJson?).map Input.predicates = _
      rw [Json.list?_ofList Pred.ofJson?_toJson]
      rfl
  | comment text => rfl

/-- An action is read back by its kind. -/
@[simp]
theorem Action.ofJson?_toJson (a : Action) : Action.ofJson? a.toJson = some a := by
  -- the kind stands among the fields, so the readers of the parts pass over it
  cases a with
  | mark m hyps => cases m <;> simp [toJson, ofJson?, kind, ofKind?, Mark.ofKind?, preds]
  | infer sources idents inferred => simp [toJson, ofJson?, kind, ofKind?, preds]
  | replace sources replacement toHide => simp [toJson, ofJson?, kind, ofKind?, preds]

@[simp]
theorem Antecedent.ofJson?_toJson (a : Antecedent) : Antecedent.ofJson? a.toJson = some a := by
  simp [toJson, ofJson?]

/-- A rule is read back. -/
@[simp]
theorem Rule.ofJson?_toJson (r : Rule) : Rule.ofJson? r.toJson = some r := by
  simp [toJson, ofJson?]

/-- The form of a rule is never that of a missing value. -/
@[simp]
theorem Rule.toJson_ne_null (r : Rule) : r.toJson ≠ .null := nofun

/-! ## Skeletons, dependencies and configurations -/

namespace Skeleton

/-- A skeleton is read back, by induction. -/
theorem ofJson?_toJson (s : Skeleton) : ofJson? s.toJson = some s := by
  induction s with
  | mk comment rule children ih =>
      have hchildren : ofJsonAll? (toJsonAll children) = some children :=
        Json.readAll_writeAll toJsonAll.eq_1 toJsonAll.eq_2 ofJsonAll?.eq_1 ofJsonAll?.eq_2 ih
      simp [toJson, ofJson?, childrenField?, childrenOf?, hchildren]

end Skeleton

/-- What a proof depends on is read back. -/
theorem Dependencies.ofJson?_toJson (d : Dependencies) :
    Dependencies.ofJson? d.toJson = some d := by
  simp [toJson, ofJson?, Json.set?_ofSet Json.str?_str]

theorem ReplayConfig.ofJson?_toJson (c : ReplayConfig) :
    ReplayConfig.ofJson? c.toJson = some c := by
  simp [toJson, ofJson?, fieldNames]

/-! ## Deltas -/

/-- The largest number of a handle that the format has room for. -/
def Json.wordMax : Nat := 4294967295

theorem Json.word?_int {n : Nat} (h : n ≤ wordMax) : (Json.int n).word? = some n := by
  have hhi : (n : Int) ≤ 4294967295 := Int.ofNat_le.mpr h
  rw [word?, intBetween?_int (Int.natCast_nonneg n) hhi, Option.map_some, Int.toNat_natCast]

/-- What is read is a number of 32 bits. -/
theorem Json.le_of_word? {j : Json} {n : Nat} (h : j.word? = some n) : n ≤ wordMax := by
  obtain ⟨k, hk, rfl⟩ := Option.map_eq_some_iff.mp h
  cases j with
  | int m =>
      rw [intBetween?] at hk
      split at hk
      · rename_i hbounds
        cases hk
        rw [wordMax]
        omega
      · cases hk
  | _ => cases hk

/-- A field that is read was there. -/
theorem Json.exists_of_field? {α : Type} {fields : List (String × Json)} {name : String}
    {ofJson? : Json → Option α} {a : α} (h : field? fields name ofJson? = some a) :
    ∃ j, ofJson? j = some a := by
  obtain ⟨j, -, hj⟩ := Option.bind_eq_some_iff.mp h
  exact ⟨j, hj⟩

namespace NodeId

/-- The numbers of the handle fit the format. -/
def Fits (id : NodeId) : Prop := id.index ≤ Json.wordMax ∧ id.generation ≤ Json.wordMax

/-- A handle that fits is read back. -/
theorem ofJson?_toJson {id : NodeId} (h : id.Fits) : ofJson? id.toJson = some id := by
  simp [toJson, ofJson?, Json.word?_int h.1, Json.word?_int h.2]

/-- What is read as a handle fits. -/
theorem fits_of_ofJson? {j : Json} {id : NodeId} (h : ofJson? j = some id) : id.Fits := by
  simp only [ofJson?, Option.bind_eq_bind, Option.bind_eq_some_iff] at h
  obtain ⟨fields, -, index, hindex, generation, hgeneration, heq⟩ := h
  cases heq
  obtain ⟨_, hindex⟩ := Json.exists_of_field? hindex
  obtain ⟨_, hgeneration⟩ := Json.exists_of_field? hgeneration
  exact ⟨Json.le_of_word? hindex, Json.le_of_word? hgeneration⟩

end NodeId

/-- Flags are read back from their byte. -/
@[simp]
theorem DeltaFlags.ofJson?_toJson (flags : DeltaFlags) :
    DeltaFlags.ofJson? flags.toJson = some flags := by
  have hhi : (flags.bits.toNat : Int) ≤ 255 := by
    have hlt := flags.bits.toNat_lt
    omega
  rw [toJson, ofJson?, Json.intBetween?_int (Int.natCast_nonneg _) hhi, Option.map_some,
    Int.toNat_natCast, UInt8.ofNat_toNat]

namespace NodeDelta

/-- All handles fit the format. -/
inductive Fits : NodeDelta → Prop
  | mk {node : NodeId} {flags : DeltaFlags} {children : List NodeDelta} (top : node.Fits)
      (below : ∀ c ∈ children, Fits c) : Fits (.mk node flags children)

/-- A delta that fits is read back, by induction. -/
theorem ofJson?_toJson {d : NodeDelta} (h : d.Fits) : ofJson? d.toJson = some d := by
  induction h with
  | @mk node flags children top below ih =>
      have hchildren : ofJsonAll? (toJsonAll children) = some children :=
        Json.readAll_writeAll toJsonAll.eq_1 toJsonAll.eq_2 ofJsonAll?.eq_1 ofJsonAll?.eq_2 ih
      simp [toJson, ofJson?, NodeId.ofJson?_toJson top, childrenField?, childrenOf?, hchildren]

mutual

/-- What is read as a delta fits, by recursion on the value. -/
theorem fits_of_ofJson? (j : Json) (d : NodeDelta) (h : ofJson? j = some d) : d.Fits := by
  rw [ofJson?.eq_def] at h
  -- a delta is read from an object or from an array of three
  split at h
  · rename_i fields
    simp only [Option.bind_eq_bind, Option.bind_eq_some_iff] at h
    obtain ⟨node, hnode, flags, -, children, hchildren, heq⟩ := h
    cases heq
    obtain ⟨_, hnode⟩ := Json.exists_of_field? hnode
    exact .mk (NodeId.fits_of_ofJson? hnode) (fits_of_childrenField? fields children hchildren)
  · rename_i items
    simp only [Option.bind_eq_bind, Option.bind_eq_some_iff] at h
    obtain ⟨node, hnode, flags, -, children, hchildren, heq⟩ := h
    cases heq
    exact .mk (NodeId.fits_of_ofJson? hnode) (fits_of_ofJsonAll? items children hchildren)
  · cases h

theorem fits_of_childrenField? (fields : List (String × Json)) (ds : List NodeDelta)
    (h : childrenField? fields = some ds) : ∀ d ∈ ds, d.Fits := by
  match fields with
  | [] => cases h
  | (name, j) :: rest =>
      rw [childrenField?] at h
      split at h
      · exact fits_of_childrenOf? j ds h
      · exact fits_of_childrenField? rest ds h

theorem fits_of_childrenOf? (j : Json) (ds : List NodeDelta) (h : childrenOf? j = some ds) :
    ∀ d ∈ ds, d.Fits := by
  match j with
  | .arr items => exact fits_of_ofJsonAll? items ds h
  | .null | .bool _ | .int _ | .decimal _ | .str _ | .obj _ => cases h

theorem fits_of_ofJsonAll? (items : List Json) (ds : List NodeDelta)
    (h : ofJsonAll? items = some ds) : ∀ d ∈ ds, d.Fits := by
  match items with
  | [] =>
      cases h
      exact fun d hd => nomatch hd
  | j :: rest =>
      simp only [ofJsonAll?, Option.bind_eq_bind, Option.bind_eq_some_iff] at h
      obtain ⟨first, hfirst, others, hothers, heq⟩ := h
      cases heq
      intro d hd
      rcases List.mem_cons.mp hd with rfl | hd
      · exact fits_of_ofJson? j _ hfirst
      · exact fits_of_ofJsonAll? rest others hothers d hd

end

end NodeDelta

namespace TreeDelta

/-- All handles fit the format. -/
structure Fits (d : TreeDelta) : Prop where
  tree : d.tree.number ≤ Json.wordMax
  root : d.root.Fits

/-- The delta of a tree that fits is read back. -/
theorem ofJson?_toJson {d : TreeDelta} (h : d.Fits) : ofJson? d.toJson = some d := by
  simp [toJson, ofJson?, TreeId.toJson, TreeId.ofJson?, Json.word?_int h.tree,
    NodeDelta.ofJson?_toJson h.root]

/-- What is read as the delta of a tree fits. -/
theorem fits_of_ofJson? {j : Json} {d : TreeDelta} (h : ofJson? j = some d) : d.Fits := by
  simp only [ofJson?, Option.bind_eq_bind, Option.bind_eq_some_iff] at h
  obtain ⟨fields, -, tree, htree, root, hroot, heq⟩ := h
  cases heq
  obtain ⟨_, htree⟩ := Json.exists_of_field? htree
  obtain ⟨_, hroot⟩ := Json.exists_of_field? hroot
  obtain ⟨number, hnumber, rfl⟩ := Option.map_eq_some_iff.mp htree
  exact ⟨Json.le_of_word? hnumber, NodeDelta.fits_of_ofJson? _ root hroot⟩

end TreeDelta

/-! ## All forms -/

/-- A way to write values that fit a format, and to read them. -/
structure Json.RoundTrips {α : Type} (fits : α → Prop) (toJson : α → Json)
    (ofJson? : Json → Option α) : Prop where
  /-- What is written is read back. -/
  read_written : ∀ a, fits a → ofJson? (toJson a) = some a
  /-- Whatever something was read from, it is read back from what is written
      for it. -/
  read_again : ∀ j a, ofJson? j = some a → ofJson? (toJson a) = some a

/-- Where everything is read back, reading once more changes nothing. -/
theorem Json.RoundTrips.of_read_written {α : Type} {toJson : α → Json}
    {ofJson? : Json → Option α} (h : ∀ a, ofJson? (toJson a) = some a) :
    RoundTrips (fun _ => True) toJson ofJson? :=
  ⟨fun a _ => h a, fun _ a _ => h a⟩

/-- **Forms are read back as they were written.** -/
theorem json_forms_round_trip :
    Json.RoundTrips (fun _ => True) Skeleton.toJson Skeleton.ofJson? ∧
      Json.RoundTrips (fun _ => True) TypeEnv.toJson TypeEnv.ofJson? ∧
      Json.RoundTrips (fun _ => True) Dependencies.toJson Dependencies.ofJson? ∧
      Json.RoundTrips TreeDelta.Fits TreeDelta.toJson TreeDelta.ofJson? ∧
      Json.RoundTrips (fun _ => True) SkippedActions.toJson SkippedActions.ofJson? ∧
      Json.RoundTrips (fun _ => True) ReplayConfig.toJson ReplayConfig.ofJson? := by
  refine ⟨.of_read_written Skeleton.ofJson?_toJson, .of_read_written TypeEnv.ofJson?_toJson,
    .of_read_written Dependencies.ofJson?_toJson, ⟨fun _ => TreeDelta.ofJson?_toJson, ?_⟩,
    .of_read_written SkippedActions.ofJson?_toJson, .of_read_written ReplayConfig.ofJson?_toJson⟩
  exact fun _ _ hread => TreeDelta.ofJson?_toJson (TreeDelta.fits_of_ofJson? hread)

/-- A skeleton as an array, with a set that repeats an element, fields left
    out, and three ways to write a constant. -/
def Json.scrambled : Json :=
  .arr [.str "c", .obj [("display", .str "d"), ("confidence", .int 500),
    ("reasoner_id", .str "r"),
    ("needed_hyps", .arr [.str "false", .obj [("true", .null)], .str "false"]),
    ("antecedents", .arr [.arr [.null, .arr [], .arr [],
      .arr [.arr [.str "hide", .arr [.obj [("true", .obj [])]]]]]])]]

/-- What is read from it. -/
def Skeleton.gathered : Skeleton :=
  let rule : Rule := {
    reasoner := "r"
    display := "d"
    needed := SortedBy.ofList [.top, .bottom]
    confidence := .reviewedMax
    antecedents := [{ actions := [.mark .hide (SortedBy.ofList [.top])] }] }
  .mk "c" (some rule) []

theorem scrambled_read_again :
    Skeleton.ofJson? Json.scrambled = some Skeleton.gathered ∧
      Skeleton.ofJson? Skeleton.gathered.toJson = some Skeleton.gathered := by
  have hread : Skeleton.ofJson? Json.scrambled = some Skeleton.gathered := by rfl
  exact ⟨hread, json_forms_round_trip.1.read_again _ _ hread⟩

end SequentProver
