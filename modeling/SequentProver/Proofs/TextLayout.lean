import SequentProver.Proofs.Spelling

/-! # Texts laid out as tokens

    A layout is a row of blanks and spellings.  It has a text, and each of
    its tokens has a place in that text, counted in bytes.

    Two statements tie layouts to the scanner.  A layout in which blanks
    separate the spellings is cut into its tokens, at their places, whichever
    spellings were chosen.  And every text is a layout as far as the scanner
    gets: to the end, or to a character that starts no token. -/

namespace SequentProver

/-- Characters of names are no blanks. -/
theorem isBlank_eq_false_of_isNameChar {c : Char} (h : isNameChar c = true) :
    Text.isBlank c = false := by
  rcases isNameChar_iff.mp h with hstart | hdigit | rfl
  · exact isBlank_eq_false (.inr hstart)
  · exact isBlank_eq_false (.inl hdigit)
  · decide

namespace Token

variable {t : Token} {s : String} {c : Char} {offset : Nat} {word rest cs : List Char}

/-! ## Spellings -/

/-- The texts that stand for a token: its symbols and its reserved word, and
    for names and numerals the text itself. -/
inductive Spelling : Token → String → Prop
  | symbol {t : Token} {s : String} (h : (s, t) ∈ symbols) : Spelling t s
  | keyword {t : Token} {s : String} (h : (s, t) ∈ keywords) : Spelling t s
  | name {s : String} (h : isValidName s = true) : Spelling (.ident s) s
  | digits {s : String} (hne : s ≠ "") (h : s.toList.all Text.isDigit = true) :
      Spelling (.int s) s

/-- A reserved word is read as its token. -/
theorem ofWord_keyword (h : (s, t) ∈ keywords) :
    isNameShaped s.toList = true ∧ ofWord s = t := by
  have hall : keywords.all (fun k => isNameShaped k.1.toList && ofWord k.1 = k.2) = true := by
    decide
  simpa using List.all_eq_true.mp hall (s, t) h

/-- The text stops, or goes on with a blank. -/
abbrev Parted (rest : List Char) : Prop := Ends (fun c => !Text.isBlank c) rest

/-- In front of a blank a name ends. -/
theorem Parted.ends_isNameChar (h : Parted rest) : Ends isNameChar rest :=
  h.mono fun c hc => by rw [isBlank_eq_false_of_isNameChar hc]; rfl

/-- A blank lengthens no symbol. -/
theorem Parted.ends_fuses (h : Parted rest) (hne : s ≠ "") : Ends (fuses s) rest := by
  intro c hc
  refine fuses_eq_false hne fun hinner => ?_
  have hall : innerChars.all (fun c => !Text.isBlank c) = true := by decide
  have hblank : (!Text.isBlank c) = false := h c hc
  rw [List.all_eq_true.mp hall c hinner] at hblank
  cases hblank

/-- No token is spelled by nothing. -/
theorem Spelling.ne_empty (h : Spelling t s) : s ≠ "" := by
  rintro rfl
  cases h with
  | symbol h =>
      obtain ⟨c, cs, hcs, -⟩ := exists_of_mem_symbols h
      cases hcs
  | keyword h => cases (ofWord_keyword h).1
  | name h => cases h
  | digits hne _ => exact hne rfl

/-- A spelling before a blank is cut off as its token. -/
theorem Spelling.cutOff (h : Spelling t s) (hrest : Parted rest) : CutOff s.toList t rest := by
  cases h with
  | symbol hentry =>
      exact cutOff_symbol hentry (hrest.ends_fuses (Spelling.ne_empty (.symbol hentry)))
  | keyword hentry =>
      obtain ⟨hshape, rfl⟩ := ofWord_keyword hentry
      exact cutOff_word hshape hrest.ends_isNameChar
  | name hname =>
      obtain ⟨hshape, hreserved⟩ := isValidName_iff.mp hname
      rw [← ofWord_eq_ident.mpr ⟨rfl, hreserved⟩]
      exact cutOff_word hshape hrest.ends_isNameChar
  | digits hne hdigits =>
      exact cutOff_digits hne hdigits
        (hrest.ends_isNameChar.mono fun _ => isNameChar_of_isDigit)

/-- A word is a spelling of the token that it is read as. -/
theorem spelling_ofWord (h : isNameShaped s.toList = true) : Spelling (ofWord s) s := by
  cases hlookup : keywords.lookup s with
  | some t =>
      have hmem := mem_keywords hlookup
      rw [(ofWord_keyword hmem).2]
      exact .keyword hmem
  | none =>
      have hword : ofWord s = .ident s := by
        rw [ofWord, hlookup]
        rfl
      rw [hword]
      exact .name (isValidName_iff.mpr ⟨h, (ofWord_eq_ident.mp hword).2⟩)

/-- A symbol that is found is the front of the text. -/
theorem toList_of_find? (h : symbols.find? (fun s => s.1.toList.isPrefixOf (c :: rest)) =
    some (s, t)) : s.toList = c :: rest.take (s.length - 1) := by
  have hstarts : s.toList <+: c :: rest := by simpa using List.find?_some h
  obtain ⟨d, ds, hspelling, -⟩ := exists_of_mem_symbols (List.mem_of_find?_eq_some h)
  rw [hspelling, List.cons_prefix_cons] at hstarts
  rw [← String.length_toList, hspelling, hstarts.1, List.length_cons, Nat.add_sub_cancel,
    ← List.prefix_iff_eq_take.mp hstarts.2]

theorem take_length_takeWhile (test : Char → Bool) (cs : List Char) :
    cs.take (cs.takeWhile test).length = cs.takeWhile test :=
  (List.prefix_iff_eq_take.mp (List.takeWhile_prefix test)).symm

/-- What is cut off is a spelling of its token. -/
theorem exists_spelling_of_atFront? {n : Nat} (h : atFront? c rest = some (t, n)) :
    ∃ s, Spelling t s ∧ s.toList = c :: rest.take n := by
  -- in the order in which the scanner tries them: symbol, number, word
  rw [atFront?] at h
  split at h
  · next spelling token hfind =>
    cases h
    exact ⟨spelling, .symbol (List.mem_of_find?_eq_some hfind), toList_of_find? hfind⟩
  · split at h
    · next hdigit =>
      cases h
      refine ⟨_, .digits ?_ ?_, ?_⟩
      · exact fun hempty => by simpa using congrArg String.toList hempty
      · simp [hdigit]
      · rw [String.toList_ofList, take_length_takeWhile]
    · split at h
      · next hstart =>
        cases h
        refine ⟨_, spelling_ofWord ?_, ?_⟩
        · simp [isNameShaped, hstart]
        · rw [String.toList_ofList, take_length_takeWhile]
      · cases h

/-- Where nothing is cut off, no spelling stands in front. -/
theorem Spelling.not_prefix_of_atFront? (hs : Spelling t s) (h : atFront? c rest = none) :
    ¬ s.toList <+: c :: rest := by
  intro hstarts
  have hnone : symbols.find? (fun s => s.1.toList.isPrefixOf (c :: rest)) = none := by
    rw [atFront?] at h
    split at h
    · cases h
    · assumption
  rw [atFront?, hnone] at h
  -- neither a digit nor a letter nor a symbol is in front
  have hword : ∀ w : String, isNameShaped w.toList = true → ¬ w.toList <+: c :: rest := by
    intro w hw hfront
    cases hchars : w.toList with
    | nil => simp [hchars, isNameShaped] at hw
    | cons d ds =>
        rw [hchars, List.cons_prefix_cons] at hfront
        rw [hchars, isNameShaped, Bool.and_eq_true, hfront.1] at hw
        simp [hw.1, isDigit_eq_false hw.1] at h
  cases hs with
  | symbol hentry =>
      refine List.find?_eq_none.mp hnone _ hentry ?_
      rwa [List.isPrefixOf_iff_prefix]
  | keyword hentry => exact hword s (ofWord_keyword hentry).1 hstarts
  | name hname => exact hword s (isValidName_iff.mp hname).1 hstarts
  | digits hne hdigits =>
      cases hchars : s.toList with
      | nil => exact hne (String.toList_eq_nil_iff.mp hchars)
      | cons d ds =>
          rw [hchars, List.cons_prefix_cons] at hstarts
          rw [hchars, List.all_cons, Bool.and_eq_true, hstarts.1] at hdigits
          simp [hdigits.1] at h

/-! ## Bytes -/

/-- Lengths in bytes are those of the text. -/
theorem byteLength_ofList (cs : List Char) :
    byteLength cs = (String.ofList cs).utf8ByteSize := by
  induction cs with
  | nil => rfl
  | cons c cs ih =>
      rw [byteLength, ih, String.ofList_cons, String.utf8ByteSize_append,
        String.utf8ByteSize_singleton]

@[simp] theorem byteLength_toList (s : String) : byteLength s.toList = s.utf8ByteSize := by
  rw [byteLength_ofList, String.ofList_toList]

/-! ## Layouts -/

/-- A part of a text that is laid out: a blank, or a spelling of a token. -/
inductive Item where
  | blank (c : Char) (h : Text.isBlank c = true)
  | word (token : Token) (spelling : String) (h : Spelling token spelling)

namespace Item

/-- The text of an item. -/
def text : Item → String
  | .blank c _ => String.singleton c
  | .word _ spelling _ => spelling

/-- The token that is spelled, if the item is no blank. -/
def token? : Item → Option Token
  | .blank _ _ => none
  | .word token _ _ => some token

end Item

/-- A row of blanks and spellings. -/
abbrev Layout := List Item

namespace Layout

/-- The text of all items together. -/
def text : Layout → String
  | [] => ""
  | item :: l => item.text ++ text l

/-- The tokens, each with the byte offset of its spelling; the first item
    stands at `offset`. -/
def lexemes (offset : Nat) : Layout → List Lexeme
  | [] => []
  | .blank c _ :: l => lexemes (offset + c.utf8Size) l
  | .word token spelling _ :: l => ⟨offset, token⟩ :: lexemes (offset + spelling.utf8ByteSize) l

/-- The tokens alone. -/
def tokens (l : Layout) : List Token := l.filterMap Item.token?

/-- No two spellings stand side by side. -/
def Spaced (l : Layout) : Prop := l.IsChain fun a b => a.token? = none ∨ b.token? = none

variable {l : Layout}

/-- The tokens of a layout, whatever their offsets. -/
theorem map_token_lexemes (offset : Nat) (l : Layout) :
    (l.lexemes offset).map Lexeme.token = l.tokens := by
  induction l generalizing offset with
  | nil => rfl
  | cons item l ih =>
      cases item with
      | blank c h => exact ih _
      | word token spelling h => exact congrArg (token :: ·) (ih _)

/-- Every token of a layout stands at or behind the offset of the layout. -/
theorem le_offset {x : Lexeme} (hx : x ∈ l.lexemes offset) : offset ≤ x.offset := by
  induction l generalizing offset with
  | nil => cases hx
  | cons item l ih =>
      cases item with
      | blank c h => exact Nat.le_trans (Nat.le_add_right _ _) (ih hx)
      | word token spelling h =>
          rcases List.mem_cons.mp hx with rfl | hx
          · exact Nat.le_refl _
          · exact Nat.le_trans (Nat.le_add_right _ _) (ih hx)

/-- The offsets of the tokens strictly increase. -/
theorem pairwise_offset (offset : Nat) (l : Layout) :
    (l.lexemes offset).Pairwise fun a b => a.offset < b.offset := by
  induction l generalizing offset with
  | nil => exact .nil
  | cons item l ih =>
      cases item with
      | blank c h => exact ih _
      | word token spelling h =>
          refine .cons (fun x hx => ?_) (ih _)
          have hpos : 0 < spelling.utf8ByteSize :=
            Nat.pos_of_ne_zero fun hzero => h.ne_empty (String.utf8ByteSize_eq_zero_iff.mp hzero)
          exact Nat.lt_of_lt_of_le (Nat.lt_add_of_pos_right hpos) (le_offset hx)

/-- A token stands behind as many bytes as its offset says. -/
theorem exists_of_mem_lexemes {x : Lexeme} (hx : x ∈ l.lexemes offset) :
    ∃ before spelling after, l.text = before ++ (spelling ++ after) ∧
      x.offset = offset + before.utf8ByteSize ∧ Spelling x.token spelling := by
  induction l generalizing offset with
  | nil => cases hx
  | cons item l ih =>
      -- what stands before the token in the rest of the layout stands behind the item
      have hstep : ∀ width, item.text.utf8ByteSize = width → x ∈ lexemes (offset + width) l →
          ∃ before spelling after, text (item :: l) = before ++ (spelling ++ after) ∧
            x.offset = offset + before.utf8ByteSize ∧ Spelling x.token spelling := by
        rintro width rfl hmem
        obtain ⟨before, spelling, after, htext, hoffset, hspelled⟩ := ih hmem
        refine ⟨item.text ++ before, spelling, after, ?_, ?_, hspelled⟩
        · rw [text, htext, String.append_assoc]
        · rw [hoffset, String.utf8ByteSize_append, Nat.add_assoc]
      cases item with
      | blank c h => exact hstep _ String.utf8ByteSize_singleton hx
      | word token spelling h =>
          rcases List.mem_cons.mp hx with rfl | hx
          · exact ⟨"", spelling, text l, rfl, rfl, h⟩
          · exact hstep _ rfl hx

end Layout

/-! ## Steps of the scanner -/

theorem scan_blank (h : Text.isBlank c = true) :
    scan offset (c :: cs) = scan (offset + c.utf8Size) cs := by
  rw [scan, if_pos h]

/-- A character that starts no token is complained about at its offset. -/
theorem scan_stuck (hblank : Text.isBlank c = false) (hfront : atFront? c cs = none) :
    scan offset (c :: cs) = .error (offset, .unexpectedCharacter c) := by
  rw [scan, hblank, hfront]
  rfl

/-- A token is taken with its offset, and the scan goes on behind it. -/
theorem scan_front {n : Nat} (hblank : Text.isBlank c = false)
    (hfront : atFront? c cs = some (t, n)) :
    scan offset (c :: cs) =
      (scan (offset + byteLength (c :: cs.take n)) (cs.drop n)).map (⟨offset, t⟩ :: ·) := by
  rw [scan, hblank, hfront, byteLength, ← Nat.add_assoc]
  simp only [Bool.false_eq_true, if_false]
  cases scan (offset + c.utf8Size + byteLength (cs.take n)) (cs.drop n) <;> rfl

/-- Induction along the scanner: over the end of the text, a blank, a
    character that starts no token, and a token. -/
@[elab_as_elim]
theorem scan_induct {motive : Nat → List Char → Prop}
    (nil : ∀ offset, motive offset [])
    (blank : ∀ offset c rest, Text.isBlank c = true → motive (offset + c.utf8Size) rest →
      motive offset (c :: rest))
    (stuck : ∀ offset c rest, Text.isBlank c = false → atFront? c rest = none →
      motive offset (c :: rest))
    (front : ∀ offset c rest t n, Text.isBlank c = false → atFront? c rest = some (t, n) →
      motive (offset + byteLength (c :: rest.take n)) (rest.drop n) → motive offset (c :: rest))
    (offset : Nat) (cs : List Char) : motive offset cs := by
  -- the last two cases are of one shape here, as the outcome of the rest is not asked for
  fun_induction scan offset cs with
  | case1 offset => exact nil offset
  | case2 offset c rest hblank ih => exact blank offset c rest hblank ih
  | case3 offset c rest hblank hfront =>
      exact stuck offset c rest (Bool.eq_false_iff.mpr hblank) hfront
  | case4 offset c rest hblank t n hfront _ _ ih =>
      refine front offset c rest t n (Bool.eq_false_iff.mpr hblank) hfront ?_
      rwa [byteLength, ← Nat.add_assoc]
  | case5 offset c rest hblank t n hfront _ _ ih =>
      refine front offset c rest t n (Bool.eq_false_iff.mpr hblank) hfront ?_
      rwa [byteLength, ← Nat.add_assoc]

/-! ## Scanning a layout -/

theorem scan_cutOff (h : CutOff word t rest) :
    scan offset (word ++ rest) =
      (scan (offset + byteLength word) rest).map (⟨offset, t⟩ :: ·) := by
  obtain ⟨c, cs, rfl, hblank, hfront⟩ := h
  rw [List.cons_append, scan_front hblank hfront, List.take_left, List.drop_left]

/-- Behind a spelling of a spaced layout the text is parted from it. -/
theorem Layout.Spaced.parted {spelling : String} {h : Spelling t spelling} {l : Layout}
    (hspaced : Layout.Spaced (.word t spelling h :: l)) : Parted l.text.toList := by
  cases l with
  | nil => exact ends_nil
  | cons item l =>
      cases item with
      | blank c hc => simpa [Layout.text, Item.text] using hc
      | word t' s' h' =>
          rcases (List.isChain_cons_cons.mp hspaced).1 with hnone | hnone <;> cases hnone

/-- A spaced layout is cut into its tokens. -/
theorem scan_layout (offset : Nat) {l : Layout} (h : l.Spaced) :
    scan offset l.text.toList = .ok (l.lexemes offset) := by
  induction l generalizing offset with
  | nil => simp [Layout.text, Layout.lexemes, scan]
  | cons item l ih =>
      rw [Layout.text, String.toList_append]
      cases item with
      | blank c hc =>
          rw [Item.text, String.toList_singleton, List.singleton_append, scan_blank hc,
            ih _ h.of_cons]
          rfl
      | word t spelling hspelled =>
          rw [Item.text, scan_cutOff (hspelled.cutOff h.parted), ih _ h.of_cons,
            byteLength_toList]
          rfl

/-! ## What the scanner can do -/

/-- Every text is a layout as far as it is scanned, and the scanner stops at
    its end or at a character that starts no token. -/
theorem scan_cases (offset : Nat) (cs : List Char) :
    ∃ l : Layout,
      (cs = l.text.toList ∧ scan offset cs = .ok (l.lexemes offset)) ∨
      ∃ c rest, cs = l.text.toList ++ c :: rest ∧ Text.isBlank c = false ∧
        atFront? c rest = none ∧
        scan offset cs = .error (offset + l.text.utf8ByteSize, .unexpectedCharacter c) := by
  -- the layout grows by one item at each step of the scanner
  induction offset, cs using scan_induct with
  | nil offset => exact ⟨[], .inl ⟨rfl, by rw [scan]; rfl⟩⟩
  | blank offset c rest hblank ih =>
      obtain ⟨l, ⟨hrest, hscan⟩ | ⟨d, more, hrest, hd, hnone, hscan⟩⟩ := ih
      · refine ⟨.blank c hblank :: l, .inl ⟨?_, (scan_blank hblank).trans hscan⟩⟩
        simp [Layout.text, Item.text, hrest]
      · refine ⟨.blank c hblank :: l, .inr ⟨d, more, ?_, hd, hnone, ?_⟩⟩
        · simp [Layout.text, Item.text, hrest]
        · rw [scan_blank hblank, hscan, Layout.text, Item.text, String.utf8ByteSize_append,
            String.utf8ByteSize_singleton, Nat.add_assoc]
  | stuck offset c rest hblank hfront =>
      exact ⟨[], .inr ⟨c, rest, rfl, hblank, hfront, scan_stuck hblank hfront⟩⟩
  | front offset c rest t n hblank hfront ih =>
      obtain ⟨s, hspelled, hs⟩ := exists_spelling_of_atFront? hfront
      have hchars : c :: rest = s.toList ++ rest.drop n := by
        rw [hs, List.cons_append, List.take_append_drop]
      rw [← hs, byteLength_toList] at ih
      rw [scan_front hblank hfront, ← hs, byteLength_toList]
      obtain ⟨l, ⟨hrest, hscan⟩ | ⟨d, more, hrest, hd, hnone, hscan⟩⟩ := ih
      · refine ⟨.word t s hspelled :: l, .inl ⟨?_, by rw [hscan]; rfl⟩⟩
        rw [hchars, hrest, Layout.text, Item.text, String.toList_append]
      · refine ⟨.word t s hspelled :: l, .inr ⟨d, more, ?_, hd, hnone, ?_⟩⟩
        · rw [hchars, hrest, Layout.text, Item.text, String.toList_append, List.append_assoc]
        · rw [hscan, Layout.text, Item.text, String.utf8ByteSize_append, Nat.add_assoc]
          rfl

end Token

end SequentProver
