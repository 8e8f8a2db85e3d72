import SequentProver.Proofs.Loop
import SequentProver.Proofs.TextLayout

/-! # Scanning by byte positions

    The scanner walks over characters and counts their bytes on the way.
    Here it is once more as a loop over byte positions: at each position it
    slices the text there, and runs of digits and words are sliced off by
    their number of bytes.  A slice inside a character has no value, and is a
    fault of the turn that makes it.

    On every text the loop ends without a fault, with the answer of the
    scanner: the text before the position is what was scanned, and so every
    slice falls between two characters. -/

namespace SequentProver.Token

variable {text before rest : String} {c : Char} {more : List Char}

/-! ## Slices -/

/-- The text from a byte position on; none inside a character or beyond the
    end. -/
def sliceFrom? (text : String) (i : Nat) : Option String :=
  if h : String.Pos.Raw.IsValid text ⟨i⟩ then some (text.sliceFrom ⟨⟨i⟩, h⟩).copy else none

/-- The text before a byte position. -/
def sliceTo? (text : String) (i : Nat) : Option String :=
  if h : String.Pos.Raw.IsValid text ⟨i⟩ then some (text.sliceTo ⟨⟨i⟩, h⟩).copy else none

/-- Between two parts of a text is a position. -/
theorem isValid_append (before rest : String) :
    String.Pos.Raw.IsValid (before ++ rest) ⟨before.utf8ByteSize⟩ :=
  String.Pos.Raw.isValid_iff_exists_append.mpr ⟨before, rest, rfl, rfl⟩

/-- A text cut at the end of its front part leaves the rest. -/
theorem sliceFrom?_append (before rest : String) :
    sliceFrom? (before ++ rest) before.utf8ByteSize = some rest := by
  rw [sliceFrom?, dif_pos (isValid_append before rest)]
  exact congrArg some (String.Pos.Splits.copy_sliceFrom_eq ⟨rfl, rfl⟩)

/-- A text cut there gives the front part. -/
theorem sliceTo?_append (before rest : String) :
    sliceTo? (before ++ rest) before.utf8ByteSize = some before := by
  rw [sliceTo?, dif_pos (isValid_append before rest)]
  exact congrArg some (String.Pos.Splits.copy_sliceTo_eq ⟨rfl, rfl⟩)

/-! ## The loop -/

/-- The run of characters that pass the test, sliced off by its bytes. -/
def sliceRun? (test : Char → Bool) (rest : String) : Option String :=
  sliceTo? rest (byteLength (rest.toList.takeWhile test))

/-- The token in front of `rest`, which starts with `c`, with the number of
    its bytes.  The inner `none` says that no token starts there, the outer
    one that a slice fell inside a character. -/
def frontBytes? (c : Char) (rest : String) : Option (Option (Token × Nat)) :=
  match symbols.find? fun s => s.1.toList.isPrefixOf rest.toList with
  | some (spelling, token) => some (some (token, spelling.utf8ByteSize))
  | none =>
    if Text.isDigit c then
      (sliceRun? Text.isDigit rest).map fun digits => some (.int digits, digits.utf8ByteSize)
    else if isNameStart c then
      (sliceRun? isNameChar rest).map fun word => some (ofWord word, word.utf8ByteSize)
    else some none

/-- Look at the byte position `i`, behind the tokens found before. -/
def scanTurn (text : String) : List Lexeme × Nat →
    Option (List Lexeme × Nat ⊕ Except (Nat × Complaint) (List Lexeme))
  | (found, i) => do
    if i < text.utf8ByteSize then
      let rest ← sliceFrom? text i
      match rest.toList with
      | [] => some (.inr (.ok found))
      | c :: _ =>
        if Text.isBlank c then some (.inl (found, i + c.utf8Size))
        else
          match ← frontBytes? c rest with
          | none => some (.inr (.error (i, .unexpectedCharacter c)))
          | some (token, width) => some (.inl (found ++ [⟨i, token⟩], i + width))
    else some (.inr (.ok found))

/-! ## One turn -/

/-- A run is cut off at the first character that fails the test. -/
theorem sliceRun?_eq {test : Char → Bool} (hrest : rest.toList = c :: more)
    (hc : test c = true) :
    sliceRun? test rest = some (String.ofList (c :: more.takeWhile test)) := by
  have hsplit : rest = String.ofList (c :: more.takeWhile test) ++
      String.ofList (more.dropWhile test) := by
    rw [← String.ofList_append, List.cons_append, List.takeWhile_append_dropWhile, ← hrest,
      String.ofList_toList]
  rw [sliceRun?, hrest, List.takeWhile_cons_of_pos hc, byteLength_ofList]
  conv_lhs => rw [hsplit]
  exact sliceTo?_append _ _

/-- The token in front is sliced off as it is cut off. -/
theorem frontBytes?_eq (hrest : rest.toList = c :: more) :
    frontBytes? c rest =
      some ((atFront? c more).map fun p => (p.1, byteLength (c :: more.take p.2))) := by
  rw [frontBytes?, atFront?, hrest]
  -- by the three things that can be in front, in the order they are tried
  cases hfind : symbols.find? fun s => s.1.toList.isPrefixOf (c :: more) with
  | some entry =>
      obtain ⟨spelling, token⟩ := entry
      simp only [Option.map_some]
      rw [← toList_of_find? hfind, byteLength_toList]
  | none =>
      simp only
      split
      · rename_i hdigit
        rw [sliceRun?_eq hrest hdigit, Option.map_some, Option.map_some, take_length_takeWhile,
          byteLength_ofList]
      · split
        · rename_i hstart
          rw [sliceRun?_eq hrest (isNameChar_of_isNameStart hstart), Option.map_some,
            Option.map_some, take_length_takeWhile, byteLength_ofList]
        · rfl

/-- In front of a character a turn slices the text there and looks at the
    token in front. -/
theorem scanTurn_eq (htext : text = before ++ rest) (hrest : rest.toList = c :: more)
    (found : List Lexeme) :
    scanTurn text (found, before.utf8ByteSize) =
      if Text.isBlank c then some (.inl (found, before.utf8ByteSize + c.utf8Size))
      else
        match atFront? c more with
        | none => some (.inr (.error (before.utf8ByteSize, .unexpectedCharacter c)))
        | some (token, n) =>
          some (.inl (found ++ [⟨before.utf8ByteSize, token⟩],
            before.utf8ByteSize + byteLength (c :: more.take n))) := by
  subst htext
  have hsize : before.utf8ByteSize < (before ++ rest).utf8ByteSize := by
    have hpos := c.utf8Size_pos
    rw [String.utf8ByteSize_append, ← byteLength_toList rest, hrest, byteLength]
    omega
  rw [scanTurn, if_pos hsize, sliceFrom?_append]
  simp only [Option.bind_eq_bind, Option.bind_some, hrest, frontBytes?_eq hrest]
  cases atFront? c more <;> rfl

/-! ## The run -/

/-- The position moves behind what was scanned. -/
theorem append_moved {word cs : List Char} (htext : text = before ++ rest)
    (hrest : rest.toList = word ++ cs) :
    text = before ++ String.ofList word ++ String.ofList cs ∧
      (before ++ String.ofList word).utf8ByteSize = before.utf8ByteSize + byteLength word := by
  constructor
  · rw [htext, String.append_assoc, ← String.ofList_append, ← hrest, String.ofList_toList]
  · rw [String.utf8ByteSize_append, byteLength_ofList]

/-- The loop, wherever it stands, ends with what the scanner makes of the
    rest of the text. -/
theorem runsTo_scan (htext : text = before ++ rest) (found : List Lexeme) :
    RunsTo (scanTurn text) (found, before.utf8ByteSize)
      ((scan before.utf8ByteSize rest.toList).map (found ++ ·)) := by
  generalize hoffset : before.utf8ByteSize = offset
  generalize hcs : rest.toList = cs
  -- the turns follow the scan; `before` is what they have passed
  induction offset, cs using scan_induct generalizing before rest found with
  | nil offset =>
      have hend : ¬ offset < text.utf8ByteSize := by
        rw [htext, String.utf8ByteSize_append, String.toList_eq_nil_iff.mp hcs, hoffset]
        exact Nat.lt_irrefl _
      refine .done ?_
      rw [scanTurn, if_neg hend, scan]
      simp [Except.map]
  | blank offset c more hblank ih =>
      subst hoffset
      have hword : rest.toList = [c] ++ more := hcs
      obtain ⟨hmoved, hsize⟩ := append_moved htext hword
      have hturn := scanTurn_eq htext hcs found
      rw [if_pos hblank] at hturn
      rw [scan_blank hblank]
      exact .again hturn (ih hmoved found hsize String.toList_ofList)
  | stuck offset c more hblank hfront =>
      subst hoffset
      have hturn := scanTurn_eq htext hcs found
      rw [hblank, hfront] at hturn
      rw [scan_stuck hblank hfront]
      exact .done hturn
  | front offset c more t n hblank hfront ih =>
      subst hoffset
      -- a token moves the offset by the bytes it is written with
      have hword : rest.toList = (c :: more.take n) ++ more.drop n := by
        rw [hcs, List.cons_append, List.take_append_drop]
      obtain ⟨hmoved, hsize⟩ := append_moved htext hword
      have hturn := scanTurn_eq htext hcs found
      rw [hblank, hfront] at hturn
      have hrun := ih hmoved (found ++ [⟨before.utf8ByteSize, t⟩]) hsize String.toList_ofList
      refine .again hturn ?_
      rw [scan_front hblank hfront]
      cases hscan : scan (before.utf8ByteSize + byteLength (c :: more.take n)) (more.drop n) with
      | error e => rwa [hscan] at hrun
      | ok lexemes =>
          rw [hscan] at hrun
          simpa [Except.map] using hrun

/-- The loop over byte positions never slices inside a character and always
    ends, with the tokens of the text. -/
theorem runsTo_tokenize (text : String) : RunsTo (scanTurn text) ([], 0) (tokenize text) := by
  have hrun : RunsTo (scanTurn text) ([], 0) ((scan 0 text.toList).map ([] ++ ·)) :=
    runsTo_scan (String.empty_append (s := text)).symm []
  rw [tokenize]
  cases hscan : scan 0 text.toList <;> rwa [hscan] at hrun

end SequentProver.Token
