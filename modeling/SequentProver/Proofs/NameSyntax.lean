import Mathlib.Computability.RegularExpressions
import SequentProver.Formula.Typing
import SequentProver.Proofs.RoundTrip
import SequentProver.Proofs.TextLayout

/-! # Names and the scanner

    The syntax of names is a regular expression, less the reserved words.
    The scanner has classes of characters, a table of symbols that it tries
    first, and a table of keywords.  Both say the same: a text is a valid
    name exactly if it is one token, the name itself. -/

namespace SequentProver

variable {c : Char} {cs word : List Char} {s : String}

/-! ## The pattern -/

/-- The characters from `first` to `last`. -/
def charRange (first last : Char) : List Char :=
  (List.range' first.toNat (last.toNat + 1 - first.toNat)).map Char.ofNat

/-- One character of a list. -/
def oneOf (cs : List Char) : RegularExpression Char := (cs.map RegularExpression.char).sum

/-- A letter or an underscore, and then letters, digits, underscores and
    primes. -/
def namePattern : RegularExpression Char :=
  oneOf (charRange 'A' 'Z' ++ charRange 'a' 'z' ++ ['_']) *
    (oneOf (charRange 'A' 'Z' ++ charRange 'a' 'z' ++ charRange '0' '9' ++ ['_', '\''])).star

/-- A range below the surrogates has no gaps. -/
theorem mem_charRange {first last : Char} (hlast : last.toNat < 0xd800) :
    c ∈ charRange first last ↔ first.toNat ≤ c.toNat ∧ c.toNat ≤ last.toNat := by
  rw [charRange, List.mem_map]
  constructor
  · rintro ⟨n, hn, rfl⟩
    rw [List.mem_range'_1] at hn
    have hvalid : n.isValidChar := .inl (by omega)
    have hcode : (Char.ofNat n).toNat = n := by
      rw [Char.ofNat, dif_pos hvalid]
      rfl
    omega
  · intro hc
    refine ⟨c.toNat, ?_, Char.ofNat_toNat c⟩
    rw [List.mem_range'_1]
    omega

/-- One character of a list matches as a word of one letter. -/
theorem mem_matches'_oneOf : word ∈ (oneOf cs).matches' ↔ ∃ c ∈ cs, word = [c] := by
  induction cs with
  | nil => simp [oneOf, Language.notMem_zero]
  | cons d cs ih =>
      rw [oneOf, List.map_cons, List.sum_cons, RegularExpression.matches'_add, Language.mem_add,
        RegularExpression.matches'_char, ← oneOf, ih, List.exists_mem_cons_iff]
      rfl

/-- Repeated choices from a list are texts over that list. -/
theorem mem_matches'_star_oneOf : word ∈ (oneOf cs).star.matches' ↔ ∀ c ∈ word, c ∈ cs := by
  rw [RegularExpression.matches'_star, Language.mem_kstar]
  constructor
  · rintro ⟨parts, rfl, hparts⟩ c hc
    obtain ⟨part, hpart, hcpart⟩ := List.mem_flatten.mp hc
    obtain ⟨d, hd, rfl⟩ := mem_matches'_oneOf.mp (hparts part hpart)
    rwa [List.mem_singleton.mp hcpart]
  · intro hword
    refine ⟨word.map ([·]), ?_, fun part hpart => ?_⟩
    · rw [← List.flatMap_def, List.flatMap_singleton']
    · obtain ⟨c, hc, rfl⟩ := List.mem_map.mp hpart
      exact mem_matches'_oneOf.mpr ⟨c, hword c hc, rfl⟩

/-- Names start with a letter or an underscore. -/
theorem isNameStart_iff_mem :
    isNameStart c = true ↔ c ∈ charRange 'A' 'Z' ++ charRange 'a' 'z' ++ ['_'] := by
  rw [isNameStart_iff, List.mem_append, List.mem_append, mem_charRange (by decide),
    mem_charRange (by decide), List.mem_singleton, or_assoc, Char.ext_iff, UInt32.ext_iff]
  rfl

/-- Names go on with letters, digits, underscores and primes. -/
theorem isNameChar_iff_mem : isNameChar c = true ↔
    c ∈ charRange 'A' 'Z' ++ charRange 'a' 'z' ++ charRange '0' '9' ++ ['_', '\''] := by
  have hdigit : Text.isDigit c = true ↔ c ∈ charRange '0' '9' := by
    rw [isDigit_iff, mem_charRange (by decide)]
    rfl
  rw [isNameChar_iff, isNameStart_iff_mem, hdigit]
  simp only [List.mem_append, List.mem_cons, List.not_mem_nil, or_false]
  tauto

/-- The pattern describes the shape of a name. -/
theorem isNameShaped_iff : isNameShaped cs = true ↔ cs ∈ namePattern.matches' := by
  rw [namePattern, RegularExpression.matches'_mul, Language.mem_mul]
  simp only [mem_matches'_oneOf, mem_matches'_star_oneOf, ← isNameStart_iff_mem,
    ← isNameChar_iff_mem]
  cases cs with
  | nil => simp [isNameShaped]
  | cons c rest => simp [isNameShaped]

/-! ## One token -/

/-- A valid name is cut into itself. -/
theorem tokenize_name (h : isValidName s = true) : Token.tokenize s = .ok [⟨0, .ident s⟩] := by
  have hscan := Token.scan_layout 0 (l := [.word (.ident s) s (.name h)]) (.singleton _)
  rwa [Token.Layout.text, Token.Layout.text, String.append_empty] at hscan

/-- A text is a valid name if and only if it matches the pattern and is no
    reserved word, if and only if it is cut into itself as the only token, if
    and only if it is read as itself.  So what is accepted as the name of an
    identifier is never read as anything else. -/
theorem names_read_as_written (s : String) :
    (isValidName s = true ↔ s.toList ∈ namePattern.matches' ∧ s ∉ reservedWords) ∧
      (isValidName s = true ↔ Token.tokenize s = .ok [⟨0, .ident s⟩]) ∧
      (isValidName s = true ↔ Expr.parse s = .ok (.ident s)) ∧
      ∀ ty n, TypedName.make s ty = .ok n →
        Token.tokenize n.name = .ok [⟨0, .ident n.name⟩] ∧
          Expr.parse n.name = .ok (.ident n.name) := by
  have hparse : isValidName s = true → Expr.parse s = .ok (.ident s) :=
    fun hs => Expr.parse_text (e := .ident s) hs
  refine ⟨?_, ⟨tokenize_name, fun htokens => ?_⟩, ⟨hparse, fun hread => ?_⟩, ?_⟩
  · rw [isValidName_iff, isNameShaped_iff]
  · exact Token.isValidName_of_scan htokens List.mem_cons_self rfl
  · exact Expr.wellNamed_of_parse hread
  -- `make` checks the name, so what it gives is covered by the parts above
  · intro ty n hmake
    rw [TypedName.make] at hmake
    split at hmake
    · next hs =>
      cases hmake
      exact ⟨tokenize_name hs, hparse hs⟩
    · cases hmake

/-- A reserved word with a prime is a name, and the word itself is none. -/
theorem primed_word_read_as_written :
    TypedName.make "forall'" .integer = .ok ⟨"forall'", .integer⟩ ∧
      Expr.parse "forall'" = .ok (.ident "forall'") ∧
      Token.tokenize "forall" ≠ .ok [⟨0, .ident "forall"⟩] := by
  have hmake : TypedName.make "forall'" .integer = .ok ⟨"forall'", .integer⟩ := by decide
  refine ⟨hmake, ((names_read_as_written "forall'").2.2.2 _ _ hmake).2, fun htokens => ?_⟩
  have hvalid := (names_read_as_written "forall").2.1.mpr htokens
  revert hvalid
  decide

end SequentProver
