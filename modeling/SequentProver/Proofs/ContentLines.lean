import Mathlib.Data.List.Basic
import SequentProver.Digest.Content

/-! # Reading a content back from its lines

    A content is hashed as lines `name:value`, one after another, with nothing
    escaped.  As long as no name has a colon and no value a line break, the
    fields can be told from the bytes: a name ends at the first colon, a value
    at the first line break.

    A value that has line breaks is a danger only to fields of its own name
    that follow: inside it, a line that starts with the name and a colon looks
    like another field.  Cut at these places, the values can be told again.

    Route:
    1. bytes, text and characters determine one another;
    2. `OneLine` fields, and that they can be told in front of anything that
       does not look like one of them;
    3. `pieces`, a value cut where it looks like another field;
    4. digests, which tell the bytes up to a collision of the hash. -/

namespace SequentProver

namespace Content

variable {fs gs : List ContentField}

/-! ## Bytes and characters -/

theorem toList_loop (b : ByteArray) (i : Nat) (acc : List UInt8) :
    ByteArray.toList.loop b i acc = acc.reverse ++ b.data.toList.drop i := by
  fun_induction ByteArray.toList.loop b i acc with
  | case1 i acc hlt ih =>
      have hi : i < b.data.toList.length := by simpa using hlt
      have hget : b.get! i = b.data.toList[i] := by
        rw [Array.getElem_toList]
        exact getElem!_pos b.data i hlt
      rw [ih, List.drop_eq_getElem_cons hi, hget, List.reverse_cons, List.append_assoc]
      rfl
  | case2 i acc hge =>
      have hi : b.data.toList.length ≤ i := by simpa using hge
      rw [List.drop_eq_nil_of_le hi, List.append_nil]

/-- The bytes of an array as a list. -/
theorem toList_byteArray (b : ByteArray) : b.toList = b.data.toList := by
  rw [ByteArray.toList, toList_loop, List.reverse_nil, List.nil_append, List.drop_zero]

/-- The characters of a line. -/
def lineChars (f : ContentField) : List Char := f.1.toList ++ ':' :: (f.2.toList ++ ['\n'])

/-- The characters of a content are those of its lines. -/
theorem toList_text (fs : List ContentField) : (text fs).toList = fs.flatMap lineChars := by
  rw [text, String.toList_join, List.flatMap_map]
  refine List.flatMap_congr ?_
  intro f _
  simp [line, lineChars]

/-- Nothing is lost between the characters of the lines and their bytes. -/
theorem bytes_eq_iff : bytes fs = bytes gs ↔ fs.flatMap lineChars = gs.flatMap lineChars := by
  rw [bytes, bytes, toList_byteArray, toList_byteArray, Array.toList_inj, ← toList_text,
    ← toList_text, String.toList_inj, ← String.toByteArray_inj]
  exact ⟨ByteArray.ext, congrArg ByteArray.data⟩

/-! ## Fields on one line -/

/-- The name ends at the first colon, the value at the first line break. -/
structure OneLine (f : ContentField) : Prop where
  name : ':' ∉ f.1.toList
  value : '\n' ∉ f.2.toList

theorem oneLine_mk {name value : String} (hname : ':' ∉ name.toList)
    (hvalue : '\n' ∉ value.toList) : OneLine (name, value) := ⟨hname, hvalue⟩

/-- Where a character is met first, two texts part in the same way. -/
theorem append_cons_inj {c : Char} {a b x y : List Char} (ha : c ∉ a) (hb : c ∉ b)
    (h : a ++ c :: x = b ++ c :: y) : a = b ∧ x = y := by
  induction a generalizing b with
  | nil =>
      cases b with
      | nil => exact ⟨rfl, (List.cons.inj h).2⟩
      | cons d b => exact absurd ((List.cons.inj h).1 ▸ List.mem_cons_self) hb
  | cons d a ih =>
      cases b with
      | nil => exact absurd ((List.cons.inj h).1 ▸ List.mem_cons_self) ha
      | cons e b =>
          obtain ⟨rfl, hrest⟩ := List.cons.inj h
          obtain ⟨rfl, hxy⟩ := ih (fun hc => ha (List.mem_cons_of_mem _ hc))
            (fun hc => hb (List.mem_cons_of_mem _ hc)) hrest
          exact ⟨rfl, hxy⟩

theorem lineChars_append (f : ContentField) (x : List Char) :
    lineChars f ++ x = f.1.toList ++ ':' :: (f.2.toList ++ '\n' :: x) := by
  simp [lineChars]

/-- A field on one line can be told from what follows. -/
theorem lineChars_append_inj {f g : ContentField} (hf : OneLine f) (hg : OneLine g)
    {x y : List Char} (h : lineChars f ++ x = lineChars g ++ y) : f = g ∧ x = y := by
  rw [lineChars_append, lineChars_append] at h
  obtain ⟨hname, hrest⟩ := append_cons_inj hf.name hg.name h
  obtain ⟨hvalue, hxy⟩ := append_cons_inj hf.value hg.value hrest
  exact ⟨Prod.ext (String.toList_inj.mp hname) (String.toList_inj.mp hvalue), hxy⟩

/-- Fields on one line each can be told in front of texts that do not go on
    with one of them. -/
theorem eq_of_lines (hfs : ∀ f ∈ fs, OneLine f) (hgs : ∀ g ∈ gs, OneLine g) {x y : List Char}
    (hx : ∀ g ∈ gs, ¬ lineChars g <+: x) (hy : ∀ f ∈ fs, ¬ lineChars f <+: y)
    (h : fs.flatMap lineChars ++ x = gs.flatMap lineChars ++ y) : fs = gs ∧ x = y := by
  induction fs generalizing gs with
  | nil =>
      -- the shorter list is over where a line of the other would start, against `hx`
      cases gs with
      | nil => exact ⟨rfl, h⟩
      | cons g gs =>
          rw [List.flatMap_nil, List.nil_append, List.flatMap_cons, List.append_assoc] at h
          exact absurd ⟨_, h.symm⟩ (hx g List.mem_cons_self)
  | cons f fs ih =>
      cases gs with
      | nil =>
          rw [List.flatMap_nil, List.nil_append, List.flatMap_cons, List.append_assoc] at h
          exact absurd ⟨_, h⟩ (hy f List.mem_cons_self)
      | cons g gs =>
          rw [List.flatMap_cons, List.flatMap_cons, List.append_assoc, List.append_assoc] at h
          obtain ⟨rfl, hrest⟩ :=
            lineChars_append_inj (hfs f List.mem_cons_self) (hgs g List.mem_cons_self) h
          obtain ⟨rfl, hxy⟩ := ih (fun f' hf => hfs f' (List.mem_cons_of_mem _ hf))
            (fun g' hg => hgs g' (List.mem_cons_of_mem _ hg))
            (fun g' hg => hx g' (List.mem_cons_of_mem _ hg))
            (fun f' hf => hy f' (List.mem_cons_of_mem _ hf)) hrest
          exact ⟨rfl, hxy⟩

theorem not_lineChars_prefix_nil (f : ContentField) : ¬ lineChars f <+: [] := by
  intro h
  have hnil := List.prefix_nil.mp h
  rw [lineChars] at hnil
  simp at hnil

/-- Where all fields are on one line, the bytes tell the fields. -/
theorem eq_of_bytes (hfs : ∀ f ∈ fs, OneLine f) (hgs : ∀ g ∈ gs, OneLine g)
    (h : bytes fs = bytes gs) : fs = gs := by
  have hchars := bytes_eq_iff.mp h
  refine (eq_of_lines hfs hgs (fun g _ => not_lineChars_prefix_nil g)
    (fun f _ => not_lineChars_prefix_nil f) ?_).1
  rw [hchars]

/-! ## The values under a name -/

/-- The values of the fields with the given name. -/
def valuesOf (name : String) (fs : List ContentField) : List String :=
  (fs.filter fun f => f.1 = name).map Prod.snd

@[simp] theorem valuesOf_append (name : String) (fs gs : List ContentField) :
    valuesOf name (fs ++ gs) = valuesOf name fs ++ valuesOf name gs := by
  rw [valuesOf, List.filter_append, List.map_append]
  rfl

@[simp] theorem valuesOf_fields (name other : String) (values : List String) :
    valuesOf name (fields other values) = if other = name then values else [] := by
  rw [valuesOf, fields, List.filter_map, List.map_map]
  by_cases hname : other = name
  · simp [hname, Function.comp_def]
  · simp [hname, Function.comp_def]

/-- Lines made from values without line breaks are single lines. -/
theorem oneLine_of_mem_fields {name : String} (hname : ':' ∉ name.toList) {values : List String}
    (hvalues : ∀ v ∈ values, '\n' ∉ v.toList) {f : ContentField} (hf : f ∈ fields name values) :
    OneLine f ∧ f.1 = name := by
  obtain ⟨v, hv, rfl⟩ := List.mem_map.mp hf
  exact ⟨oneLine_mk hname (hvalues v hv), rfl⟩

/-- A value that may be missing is a list of at most one. -/
theorem optional_eq_fields (name : String) (value : Option String) :
    optional name value = fields name value.toList := by
  cases value <;> rfl

/-! ## Values with line breaks -/

section Pieces

variable {key : String} {v w : List Char} {vs ws : List (List Char)}

/-- A line break after which a field called `key` would start. -/
def breakAt (key : String) : List Char := '\n' :: (key.toList ++ [':'])

/-- The text has no line that looks like a field called `key`, the first line
    apart. -/
def Unbroken (key : String) (v : List Char) : Prop := ¬ breakAt key <:+: v

instance (key : String) (v : List Char) : Decidable (Unbroken key v) :=
  inferInstanceAs (Decidable (¬ _))

/-- The lines of fields called `key`. -/
def block (key : String) (vs : List (List Char)) : List Char :=
  vs.flatMap fun v => key.toList ++ ':' :: (v ++ ['\n'])

/-- Lines under one key are a block. -/
theorem flatMap_fields (key : String) (values : List String) :
    (fields key values).flatMap lineChars = block key (values.map String.toList) := by
  rw [fields, block, List.flatMap_map, List.flatMap_map]
  rfl

theorem block_cons (key : String) (v : List Char) (vs : List (List Char)) :
    block key (v :: vs) = key.toList ++ ':' :: (v ++ '\n' :: block key vs) := by
  simp [block]

/-- Blocks under one key are joined. -/
theorem block_append (key : String) (vs ws : List (List Char)) :
    block key (vs ++ ws) = block key vs ++ block key ws := List.flatMap_append

/-- A line at the front of a block is one of its own. -/
theorem name_of_front_line {f : ContentField} (hf : OneLine f) (hkey : ':' ∉ key.toList)
    (h : lineChars f <+: block key vs) : f.1 = key := by
  cases vs with
  | nil => exact absurd h (not_lineChars_prefix_nil f)
  | cons v vs =>
      obtain ⟨rest, hrest⟩ := h
      rw [lineChars_append, block_cons] at hrest
      exact String.toList_inj.mp (append_cons_inj hf.name hkey hrest).1

/-- A value up to the first place where it looks like another field, and the
    further values that it looks like. -/
def cut (key : String) : List Char → List Char × List (List Char)
  | [] => ([], [])
  | c :: rest =>
    if breakAt key <+: c :: (cut key rest).1 then
      ([], (c :: (cut key rest).1).drop (breakAt key).length :: (cut key rest).2)
    else (c :: (cut key rest).1, (cut key rest).2)

/-- The values that the lines of one value look like. -/
def pieces (key : String) (v : List Char) : List (List Char) := (cut key v).1 :: (cut key v).2

/-- Put together again, the parts give back the value. -/
theorem glue_cut (key : String) (v : List Char) :
    (cut key v).1 ++ (cut key v).2.flatMap (breakAt key ++ ·) = v := by
  induction v with
  | nil => rfl
  | cons c rest ih =>
      rw [cut]
      by_cases hbreak : breakAt key <+: c :: (cut key rest).1
      · obtain ⟨tail, htail⟩ := hbreak
        rw [if_pos ⟨tail, htail⟩, List.nil_append, List.flatMap_cons, ← htail, List.drop_left, htail,
          List.cons_append, ih]
      · rw [if_neg hbreak, List.cons_append, ih]

/-- An empty text has no such line. -/
theorem unbroken_nil (key : String) : Unbroken key [] := by
  intro h
  exact absurd (List.infix_nil.mp h) (List.cons_ne_nil _ _)

/-- No part looks like several fields. -/
theorem unbroken_of_mem_pieces (h : w ∈ pieces key v) : Unbroken key w := by
  induction v generalizing w with
  | nil =>
      rw [List.mem_singleton.mp h]
      exact unbroken_nil key
  | cons c rest ih =>
      rw [pieces, cut] at h
      by_cases hbreak : breakAt key <+: c :: (cut key rest).1
      · rw [if_pos hbreak, List.mem_cons, List.mem_cons] at h
        rcases h with rfl | rfl | h
        · exact unbroken_nil key
        · -- what follows the break is an end of the first part so far
          have hsuffix : (c :: (cut key rest).1).drop (breakAt key).length <:+
              (cut key rest).1 := by
            rw [breakAt, List.length_cons, List.drop_succ_cons]
            exact List.drop_suffix _ _
          exact fun hinside => ih List.mem_cons_self (hinside.trans hsuffix.isInfix)
        · exact ih (List.mem_cons_of_mem _ h)
      · rw [if_neg hbreak, List.mem_cons] at h
        rcases h with rfl | h
        · intro hinside
          rcases List.infix_cons_iff.mp hinside with hlead | hinside
          · exact hbreak hlead
          · exact ih List.mem_cons_self hinside
        · exact ih (List.mem_cons_of_mem _ h)

/-- A block with its line breaks in front of the lines that follow. -/
theorem block_cons_eq_glue (key : String) (v : List Char) (vs : List (List Char)) :
    block key (v :: vs) =
      key.toList ++ ':' :: (v ++ vs.flatMap (breakAt key ++ ·) ++ ['\n']) := by
  induction vs generalizing v with
  | nil => simp [block]
  | cons w vs ih =>
      rw [block_cons, ih]
      simp [breakAt]

/-- The pieces of a value are written as the value is. -/
theorem block_pieces (key : String) (v : List Char) : block key (pieces key v) = block key [v] := by
  rw [pieces, block_cons_eq_glue, glue_cut, block_cons_eq_glue, List.flatMap_nil, List.append_nil]

theorem block_flatMap_pieces (key : String) (vs : List (List Char)) :
    block key (vs.flatMap (pieces key)) = block key vs := by
  induction vs with
  | nil => rfl
  | cons v vs ih =>
      rw [List.flatMap_cons, block_append, block_pieces, ih, ← block_append]
      rfl

/-- An unbroken value is no longer than the other: where it went on, the next
    line of the other block would lie inside it. -/
theorem eq_nil_of_unbroken (hkey : '\n' ∉ key.toList) {x : List Char}
    (hv : Unbroken key (v ++ x)) (h : '\n' :: block key ws = x ++ '\n' :: block key vs) : x = [] := by
  cases x with
  | nil => rfl
  | cons c x =>
      obtain ⟨rfl, hrest⟩ := List.cons.inj h
      cases ws with
      | nil => exact absurd hrest (by simp [block])
      | cons w ws =>
          -- the name and the colon have no line break, so they are all in `x`
          rw [block_cons, ← List.singleton_append, ← List.append_assoc] at hrest
          rcases List.append_eq_append_iff.mp hrest with ⟨y, hx, -⟩ | ⟨y, hlead, hy⟩
          · refine absurd ?_ hv
            exact ⟨v, y, by rw [hx, breakAt]; simp⟩
          · cases y with
            | nil =>
                refine absurd ?_ hv
                exact ⟨v, [], by rw [breakAt, hlead]; simp⟩
            | cons d y =>
                obtain ⟨rfl, -⟩ := List.cons.inj hy
                have hmem : '\n' ∈ key.toList ++ [':'] := by rw [hlead]; simp
                rcases List.mem_append.mp hmem with hmem | hmem
                · exact absurd hmem hkey
                · exact absurd (List.mem_singleton.mp hmem) (by decide)

/-- Unbroken values can be told from their lines. -/
theorem eq_of_block (hkey : '\n' ∉ key.toList) (hvs : ∀ v ∈ vs, Unbroken key v)
    (hws : ∀ w ∈ ws, Unbroken key w) (h : block key vs = block key ws) : vs = ws := by
  induction vs generalizing ws with
  | nil =>
      cases ws with
      | nil => rfl
      | cons w ws => exact absurd h (by simp [block])
  | cons v vs ih =>
      cases ws with
      | nil => exact absurd h (by simp [block])
      | cons w ws =>
          rw [block_cons, block_cons] at h
          have htail : v ++ '\n' :: block key vs = w ++ '\n' :: block key ws :=
            (List.cons.inj (List.append_cancel_left h)).2
          -- one value would go on past its line, and start the next one with the key
          have hvw : v = w := by
            rcases List.append_eq_append_iff.mp htail with ⟨x, rfl, hx⟩ | ⟨x, rfl, hx⟩
            · rw [eq_nil_of_unbroken hkey (hws _ List.mem_cons_self) hx, List.append_nil]
            · rw [eq_nil_of_unbroken hkey (hvs _ List.mem_cons_self) hx, List.append_nil]
          subst hvw
          have hblock : block key vs = block key ws :=
            (List.cons.inj (List.append_cancel_left htail)).2
          rw [ih (fun v' hv => hvs v' (List.mem_cons_of_mem _ hv))
            (fun w' hw => hws w' (List.mem_cons_of_mem _ hw)) hblock]

/-- The lines of fields of one name tell the pieces of the values, and no
    more. -/
theorem block_eq_iff (hkey : '\n' ∉ key.toList) :
    block key vs = block key ws ↔ vs.flatMap (pieces key) = ws.flatMap (pieces key) := by
  have hunbroken : ∀ us : List (List Char), ∀ u ∈ us.flatMap (pieces key), Unbroken key u := by
    intro us u hu
    obtain ⟨v, -, hpiece⟩ := List.mem_flatMap.mp hu
    exact unbroken_of_mem_pieces hpiece
  constructor
  · intro h
    refine eq_of_block hkey (hunbroken vs) (hunbroken ws) ?_
    rw [block_flatMap_pieces, block_flatMap_pieces, h]
  · intro h
    rw [← block_flatMap_pieces key vs, h, block_flatMap_pieces]

end Pieces

end Content

/-! ## Digests -/

namespace Sha256

/-- Hexadecimal digits are different characters. -/
theorem digitChar_inj {m n : Nat} (hm : m < 16) (hn : n < 16)
    (h : Nat.digitChar m = Nat.digitChar n) : m = n := by
  have hall : ∀ m < 16, ∀ n < 16, Nat.digitChar m = Nat.digitChar n → m = n := by decide
  exact hall m hm n hn h

/-- The digits tell the bytes. -/
theorem hex_inj {a b : List UInt8} (h : hex a = hex b) : a = b := by
  have hdigits := String.ofList_injective h
  clear h
  induction a generalizing b with
  | nil =>
      cases b with
      | nil => rfl
      | cons y b => cases hdigits
  | cons x a ih =>
      cases b with
      | nil => cases hdigits
      | cons y b =>
          -- each byte is two digits, which give it back
          simp only [List.flatMap_cons, List.cons_append, List.nil_append, List.cons.injEq]
            at hdigits
          obtain ⟨hhigh, hlow, hrest⟩ := hdigits
          have hx := x.toNat_lt
          have hy := y.toNat_lt
          have hhigh' := digitChar_inj (by omega) (by omega) hhigh
          have hlow' := digitChar_inj (by omega) (by omega) hlow
          have hxy : x = y := UInt8.toNat_inj.mp (by omega)
          rw [hxy, ih hrest]

/-- Two messages with one hash. -/
def Collide (m n : List UInt8) : Prop := m ≠ n ∧ hash m = hash n

end Sha256

/-- Contents with one digest have the same bytes, unless the hash collides. -/
theorem Content.bytes_eq_or_collide {fs gs : List ContentField} (h : digest fs = digest gs) :
    bytes fs = bytes gs ∨ Sha256.Collide (bytes fs) (bytes gs) := by
  by_cases hbytes : bytes fs = bytes gs
  · exact Or.inl hbytes
  · exact Or.inr ⟨hbytes, Sha256.hex_inj h⟩

end SequentProver
