import Mathlib.Data.List.Find
import Mathlib.Data.List.Infix
import SequentProver.Formula.Token

/-! # How tokens are spelled

    `Spells` says that a text is cut into given tokens, blanks apart, and
    the lemmas of this file say when a symbol, a word or a run of digits
    in front of a text is cut off as one token: a symbol when no longer
    symbol of the table could start with it, a word or a run of digits
    when what follows does not go on with it.  In the other direction,
    every name among the tokens of a text is a valid one. -/

namespace SequentProver

/-- A valid name has the shape of a name and is not reserved. -/
theorem isValidName_iff {name : String} :
    isValidName name = true ↔ isNameShaped name.toList = true ∧ name ∉ reservedWords := by
  simp [isValidName]

/-! ## Classes of characters -/

section Classes

variable {c : Char}

theorem isDigit_iff : Text.isDigit c = true ↔ 48 ≤ c.toNat ∧ c.toNat ≤ 57 := by
  simp [Text.isDigit, Char.le_def, UInt32.le_iff_toNat_le]

/-- Starts of names by their code points. -/
theorem isNameStart_iff : isNameStart c = true ↔
    65 ≤ c.toNat ∧ c.toNat ≤ 90 ∨ 97 ≤ c.toNat ∧ c.toNat ≤ 122 ∨ c.toNat = 95 := by
  show ((decide (c.val ≥ 'A'.val ∧ c.val ≤ 'Z'.val) ||
    decide (c.val ≥ 'a'.val) && decide (c.val ≤ 'z'.val)) || decide (c = '_')) = true ↔ _
  simp [UInt32.le_iff_toNat_le, Char.ext_iff, UInt32.ext_iff, or_assoc]

/-- A name goes on with what starts names, with digits and with primes. -/
theorem isNameChar_iff : isNameChar c = true ↔
    isNameStart c = true ∨ Text.isDigit c = true ∨ c = '\'' := by
  have hdigit : c.isDigit = true ↔ Text.isDigit c = true := by
    simp [isDigit_iff, Char.isDigit, UInt32.le_iff_toNat_le]
  simp only [isNameChar, Char.isAlphanum, isNameStart, Bool.or_eq_true, decide_eq_true_eq, hdigit]
  tauto

theorem isNameChar_of_isDigit (h : Text.isDigit c = true) : isNameChar c = true :=
  isNameChar_iff.mpr (.inr (.inl h))

theorem isNameChar_of_isNameStart (h : isNameStart c = true) : isNameChar c = true :=
  isNameChar_iff.mpr (.inl h)

/-- What starts a name is no digit. -/
theorem isDigit_eq_false (h : isNameStart c = true) : Text.isDigit c = false := by
  rw [isNameStart_iff] at h
  rw [Bool.eq_false_iff, ne_eq, isDigit_iff]
  omega

/-- Digits and names have no blanks. -/
theorem isBlank_eq_false (h : Text.isDigit c = true ∨ isNameStart c = true) :
    Text.isBlank c = false := by
  rw [isDigit_iff, isNameStart_iff] at h
  simp [Text.isBlank, Text.blankRanges]
  omega

end Classes

namespace Token

/-- The text, if there is one, does not go on with a character that
    passes the test. -/
def Ends (test : Char → Bool) (cs : List Char) : Prop := ∀ c ∈ cs.head?, test c = false

@[simp] theorem ends_nil {test : Char → Bool} : Ends test [] := by simp [Ends]

@[simp] theorem ends_cons {test : Char → Bool} {c : Char} {cs : List Char} :
    Ends test (c :: cs) ↔ test c = false := by simp [Ends]

/-- A run ends where the text behind it does not go on. -/
theorem takeWhile_of_ends {test : Char → Bool} {word rest : List Char}
    (hword : word.all test = true) (hrest : Ends test rest) :
    (word ++ rest).takeWhile test = word := by
  rw [List.takeWhile_append_of_pos (by simpa using hword)]
  cases rest with
  | nil => simp
  | cons c rest => simp [ends_cons.mp hrest]

/-! ## Words -/

/-- A word of the table is in the table. -/
theorem mem_keywords {word : String} {t : Token} (h : keywords.lookup word = some t) :
    (word, t) ∈ keywords := by
  obtain ⟨before, after, hkeywords, -⟩ := List.lookup_eq_some_iff.mp h
  rw [hkeywords]
  simp

/-- A word is a name exactly when it is not reserved. -/
theorem ofWord_eq_ident {word name : String} :
    ofWord word = .ident name ↔ name = word ∧ word ∉ reservedWords := by
  have hwords : reservedWords = keywords.map Prod.fst := rfl
  simp only [ofWord]
  cases hlookup : keywords.lookup word with
  -- a keyword is never read as a name
  | some token =>
      have hmem := mem_keywords hlookup
      constructor
      · intro h
        cases h
        simp [keywords] at hmem
      · rintro ⟨-, hreserved⟩
        rw [hwords] at hreserved
        exact absurd (List.mem_map_of_mem hmem) hreserved
  | none =>
      have hreserved : word ∉ reservedWords := by
        rw [hwords]
        intro hmem
        obtain ⟨entry, hentry, rfl⟩ := List.mem_map.mp hmem
        simpa using List.lookup_eq_none_iff.mp hlookup entry hentry
      simp [hreserved, eq_comm]

/-- A name at the front of a text is valid. -/
theorem isValidName_of_atFront? {c : Char} {rest : List Char} {name : String} {n : Nat}
    (h : atFront? c rest = some (.ident name, n)) : isValidName name = true := by
  rw [atFront?] at h
  split at h
  · next spelling token hfind =>
    cases h
    have hmem := List.mem_of_find?_eq_some hfind
    simp [symbols] at hmem
  · split at h
    · simp at h
    · split at h
      · next hstart =>
        simp only [Option.some.injEq, Prod.mk.injEq] at h
        obtain ⟨rfl, hreserved⟩ := ofWord_eq_ident.mp h.1
        have hshape : isNameShaped (c :: rest.takeWhile isNameChar) = true := by
          simp [isNameShaped, hstart]
        exact isValidName_iff.mpr ⟨by rwa [String.toList_ofList], hreserved⟩
      · cases h

/-- Every name among the tokens of a text is valid. -/
theorem isValidName_of_scan {offset : Nat} {cs : List Char} {ts : List Lexeme}
    (h : scan offset cs = .ok ts) {l : Lexeme} (hl : l ∈ ts) {name : String}
    (hname : l.token = .ident name) : isValidName name = true := by
  fun_induction scan offset cs generalizing ts with
  | case1 =>
      cases h
      cases hl
  | case2 offset c rest hblank ih => exact ih h hl
  | case3 => cases h
  | case4 => cases h
  | case5 offset c rest hblank token n hfront lexemes hscan ih =>
      cases h
      rcases List.mem_cons.mp hl with rfl | hmem
      · cases hname
        exact isValidName_of_atFront? hfront
      · exact ih hscan hmem

/-! ## Texts and their tokens -/

/-- The text is cut into the tokens. -/
inductive Spells : List Char → List Token → Prop
  | nil : Spells [] []
  | blank {c : Char} {cs : List Char} {ts : List Token} :
      Text.isBlank c = true → Spells cs ts → Spells (c :: cs) ts
  | token {c : Char} {word cs : List Char} {t : Token} {ts : List Token} :
      Text.isBlank c = false → atFront? c (word ++ cs) = some (t, word.length) →
      Spells cs ts → Spells (c :: (word ++ cs)) (t :: ts)

/-- A text that is cut into tokens is scanned as these tokens. -/
theorem exists_scan_of_spells {cs : List Char} {ts : List Token} (h : Spells cs ts)
    (offset : Nat) : ∃ ls, scan offset cs = .ok ls ∧ ls.map Lexeme.token = ts := by
  induction h generalizing offset with
  | nil => exact ⟨[], by simp [scan], rfl⟩
  | @blank c cs ts hblank _ ih =>
      obtain ⟨ls, hls, htokens⟩ := ih (offset + c.utf8Size)
      exact ⟨ls, by simp [scan, hblank, hls], htokens⟩
  | @token c word cs t ts hblank hfront _ ih =>
      obtain ⟨ls, hls, htokens⟩ := ih (offset + c.utf8Size + byteLength word)
      refine ⟨⟨offset, t⟩ :: ls, ?_, by simp [htokens]⟩
      simp [scan, hblank, hfront, hls]

/-- A test that passes no more characters stops at the same places. -/
theorem Ends.mono {test test' : Char → Bool} {cs : List Char} (h : Ends test cs)
    (hle : ∀ c, test' c = true → test c = true) : Ends test' cs := by
  intro c hc
  cases htest : test' c with
  | false => rfl
  | true =>
      have hfalse := h c hc
      rw [hle c htest] at hfalse
      cases hfalse

/-! ## Symbols -/

/-- Some symbol starts with the spelling and the character after it. -/
def fuses (spelling : String) (c : Char) : Bool :=
  symbols.any fun s => (spelling.toList ++ [c]).isPrefixOf s.1.toList

/-- Every symbol starts with a character that is neither a blank nor part
    of a name. -/
theorem symbols_head : ∀ entry ∈ symbols,
    entry.1.toList.head?.map (fun c => Text.isBlank c || isNameChar c) = some false := by
  decide

/-- A symbol starts with a character that is neither blank nor part of a name.
    -/
theorem exists_of_mem_symbols {entry : String × Token} (h : entry ∈ symbols) :
    ∃ c cs, entry.1.toList = c :: cs ∧ Text.isBlank c = false ∧ isNameChar c = false := by
  have hhead := symbols_head entry h
  cases hspelling : entry.1.toList with
  | nil => simp [hspelling] at hhead
  | cons c cs =>
      simp only [hspelling, List.head?_cons, Option.map_some, Option.some.injEq,
        Bool.or_eq_false_iff] at hhead
      exact ⟨c, cs, rfl, hhead.1, hhead.2⟩

/-- The characters that occur in a symbol after its first one. -/
def innerChars : List Char := ['=', '>', '\\', '/', '*']

/-- The characters behind the first of a symbol are few. -/
theorem mem_innerChars {entry : String × Token} (hentry : entry ∈ symbols) {c : Char}
    (hc : c ∈ entry.1.toList.tail) : c ∈ innerChars := by
  have htails : symbols.all fun s => s.1.toList.tail.all innerChars.contains := by decide
  have htail := List.all_eq_true.mp htails entry hentry
  exact List.contains_iff_mem.mp (List.all_eq_true.mp htail c hc)

/-- None of them is part of a name. -/
theorem isNameChar_eq_false {c : Char} (hc : c ∈ innerChars) : isNameChar c = false := by
  have hall : innerChars.all fun c => !isNameChar c := by decide
  simpa using List.all_eq_true.mp hall c hc

/-- A symbol is not lengthened by a character that starts a symbol. -/
theorem fuses_eq_false {spelling : String} {c : Char} (hne : spelling ≠ "")
    (hc : c ∉ innerChars) : fuses spelling c = false := by
  rw [fuses, List.any_eq_false]
  intro entry hentry hstarts
  rw [List.isPrefixOf_iff_prefix] at hstarts
  obtain ⟨rest, hrest⟩ := hstarts
  cases hchars : spelling.toList with
  | nil => exact hne (String.toList_eq_nil_iff.mp hchars)
  | cons d ds =>
      refine hc (mem_innerChars hentry ?_)
      rw [← hrest, hchars]
      simp

/-- A symbol is found again, as no symbol before it in the table starts it. -/
theorem find?_symbols_self : ∀ entry ∈ symbols,
    symbols.find? (fun s => s.1.toList.isPrefixOf entry.1.toList) = some entry := by
  decide

/-- A symbol is found in front of every text that does not lengthen it. -/
theorem find?_symbols {entry : String × Token} {rest : List Char} (hentry : entry ∈ symbols)
    (hrest : Ends (fuses entry.1) rest) :
    symbols.find? (fun s => s.1.toList.isPrefixOf (entry.1.toList ++ rest)) = some entry := by
  rw [← find?_symbols_self entry hentry]
  -- a symbol that starts the whole text is at most as long as the given one
  refine List.find?_congr fun s hs => ?_
  rw [Bool.eq_iff_iff, List.isPrefixOf_iff_prefix, List.isPrefixOf_iff_prefix]
  refine ⟨fun h => ?_, fun h => h.trans (List.prefix_append _ _)⟩
  cases rest with
  | nil => simpa using h
  | cons c rest =>
      have hlonger : ¬ entry.1.toList ++ [c] <+: s.1.toList := by
        intro hlonger
        have hfuses : fuses entry.1 c = true :=
          List.any_eq_true.mpr ⟨s, hs, List.isPrefixOf_iff_prefix.mpr hlonger⟩
        rw [ends_cons.mp hrest] at hfuses
        cases hfuses
      have hfront : entry.1.toList ++ [c] <+: entry.1.toList ++ c :: rest :=
        ⟨rest, by simp⟩
      rcases List.prefix_or_prefix_of_prefix h hfront with hshort | hlong
      · rcases List.prefix_concat_iff.mp hshort with heq | hstarts
        · exact absurd (heq ▸ List.prefix_refl _) hlonger
        · exact hstarts
      · exact absurd hlong hlonger

/-- No symbol starts with a character of a name. -/
theorem find?_symbols_eq_none {c : Char} {rest : List Char} (hc : isNameChar c = true) :
    symbols.find? (fun s => s.1.toList.isPrefixOf (c :: rest)) = none := by
  refine List.find?_eq_none.mpr fun s hs hstarts => ?_
  obtain ⟨d, ds, hspelling, -, hd⟩ := exists_of_mem_symbols hs
  rw [hspelling, List.isPrefixOf_iff_prefix, List.cons_prefix_cons] at hstarts
  rw [hstarts.1, hc] at hd
  cases hd

/-! ## One token in front of a text -/

/-- The characters of `word` are cut off in front of `rest` as the token. -/
def CutOff (word : List Char) (t : Token) (rest : List Char) : Prop :=
  ∃ c cs, word = c :: cs ∧ Text.isBlank c = false ∧ atFront? c (cs ++ rest) = some (t, cs.length)

section Front

variable {rest : List Char} {ts : List Token}

/-- A symbol is cut off where no longer one can start. -/
theorem cutOff_symbol {spelling : String} {t : Token} (hentry : (spelling, t) ∈ symbols)
    (hrest : Ends (fuses spelling) rest) : CutOff spelling.toList t rest := by
  have hfind := find?_symbols hentry hrest
  have hlength : spelling.toList.length = spelling.length := String.length_toList
  obtain ⟨c, cs, hspelling, hblank, -⟩ := exists_of_mem_symbols hentry
  simp only [hspelling, List.cons_append] at hfind hlength
  refine ⟨c, cs, hspelling, hblank, ?_⟩
  rw [atFront?, hfind]
  simp [← hlength]

/-- A word is cut off where it does not go on. -/
theorem cutOff_word {word : String} (hword : isNameShaped word.toList = true)
    (hrest : Ends isNameChar rest) : CutOff word.toList (ofWord word) rest := by
  cases hchars : word.toList with
  | nil => simp [hchars, isNameShaped] at hword
  | cons c cs =>
      rw [hchars, isNameShaped, Bool.and_eq_true] at hword
      refine ⟨c, cs, rfl, isBlank_eq_false (.inr hword.1), ?_⟩
      have hdigit := isDigit_eq_false hword.1
      rw [atFront?, find?_symbols_eq_none (isNameChar_of_isNameStart hword.1)]
      simp only [hdigit, hword.1, takeWhile_of_ends hword.2 hrest]
      simp [← hchars]

/-- A number is cut off where it does not go on. -/
theorem cutOff_digits {digits : String} (hne : digits ≠ "")
    (hdigits : digits.toList.all Text.isDigit = true)
    (hrest : Ends Text.isDigit rest) : CutOff digits.toList (.int digits) rest := by
  cases hchars : digits.toList with
  | nil => exact absurd (String.toList_eq_nil_iff.mp hchars) hne
  | cons c cs =>
      rw [hchars, List.all_cons, Bool.and_eq_true] at hdigits
      refine ⟨c, cs, rfl, isBlank_eq_false (.inl hdigits.1), ?_⟩
      rw [atFront?, find?_symbols_eq_none (isNameChar_of_isDigit hdigits.1)]
      simp only [hdigits.1, takeWhile_of_ends hdigits.2 hrest]
      simp [← hchars]

/-- What is cut off comes first among the tokens. -/
theorem CutOff.spells {word : List Char} {t : Token} (hword : CutOff word t rest)
    (h : Spells rest ts) : Spells (word ++ rest) (t :: ts) := by
  obtain ⟨c, cs, rfl, hblank, hfront⟩ := hword
  exact .token hblank hfront h

/-- A symbol in front of a text that is cut into tokens. -/
theorem Spells.symbol {spelling : String} {t : Token} (hentry : (spelling, t) ∈ symbols)
    (hrest : Ends (fuses spelling) rest) (h : Spells rest ts) :
    Spells (spelling.toList ++ rest) (t :: ts) :=
  (cutOff_symbol hentry hrest).spells h

/-- A word in front of such a text. -/
theorem Spells.word {word : String} (hword : isNameShaped word.toList = true)
    (hrest : Ends isNameChar rest) (h : Spells rest ts) :
    Spells (word.toList ++ rest) (ofWord word :: ts) :=
  (cutOff_word hword hrest).spells h

/-- A number in front of such a text. -/
theorem Spells.digits {digits : String} (hne : digits ≠ "")
    (hdigits : digits.toList.all Text.isDigit = true)
    (hrest : Ends Text.isDigit rest) (h : Spells rest ts) :
    Spells (digits.toList ++ rest) (.int digits :: ts) :=
  (cutOff_digits hne hdigits hrest).spells h

end Front

end Token

end SequentProver
