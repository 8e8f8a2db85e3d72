import SequentProver.Json.Basic
import SequentProver.Text.Decimal

/-! # JSON text

    A text is cut into marks, words and quoted texts in one pass over its
    characters; values are then read by recursive descent over these
    tokens.  Only a numeral without fraction and exponent is an integer,
    and minus zero is none.  Of two fields of one name the later counts. -/

namespace SequentProver.Json

/-! ## Words -/

/-- What is left after a run of digits, if there is one. -/
def afterDigits? (cs : List Char) : Option (List Char) :=
  if (cs.takeWhile Text.isDigit).isEmpty then none else some (cs.dropWhile Text.isDigit)

/-- What is left after a fraction, which may be missing. -/
def afterFraction? : List Char → Option (List Char)
  | '.' :: cs => afterDigits? cs
  | cs => some cs

/-- What is left after an exponent, which may be missing. -/
def afterExponent? : List Char → Option (List Char)
  | [] => some []
  | c :: cs =>
    if c = 'e' || c = 'E' then
      match cs with
      | '+' :: digits => afterDigits? digits
      | '-' :: digits => afterDigits? digits
      | digits => afterDigits? digits
    else some (c :: cs)

/-- The number that a sign and the numeral after it stand for.  A zero
    does not stand in front of other digits. -/
def ofNumeral? (negative : Bool) (cs : List Char) : Option Json :=
  let whole := cs.takeWhile Text.isDigit
  let rest := cs.dropWhile Text.isDigit
  let n := Text.digitsValue whole
  let numeral := Json.decimal (String.ofList (if negative then '-' :: cs else cs))
  if whole.isEmpty || (whole.head? = some '0' && 1 < whole.length) then none
  else if rest.isEmpty then
    if negative then some (if n = 0 then numeral else .int (-n)) else some (.int n)
  else if ((afterFraction? rest).bind afterExponent?) = some [] then some numeral
  else none

/-- The value that is written as a word. -/
def ofWord? (cs : List Char) : Option Json :=
  match String.ofList cs with
  | "null" => some .null
  | "true" => some (.bool true)
  | "false" => some (.bool false)
  | _ =>
    match cs with
    | '-' :: digits => ofNumeral? true digits
    | digits => ofNumeral? false digits

/-! ## Quoted texts -/

/-- The escapes of one letter. -/
def escapes : List (Char × Char) :=
  [('"', '"'), ('\\', '\\'), ('/', '/'), ('b', '\x08'), ('f', '\x0c'), ('n', '\n'), ('r', '\r'),
    ('t', '\t')]

/-- The value of a hexadecimal digit. -/
def hexValue? (c : Char) : Option Nat :=
  if '0' ≤ c && c ≤ '9' then some (c.toNat - '0'.toNat)
  else if 'a' ≤ c && c ≤ 'f' then some (c.toNat - 'a'.toNat + 10)
  else if 'A' ≤ c && c ≤ 'F' then some (c.toNat - 'A'.toNat + 10)
  else none

/-- The character with a code point, which may not be a surrogate. -/
def char? (n : Nat) : Option Char :=
  if n.isValidChar then some (Char.ofNat n) else none

/-- The text of code points, in which a high surrogate and the low one
    after it stand for one character. -/
def ofUnits? : List Nat → Option (List Char)
  | [] => some []
  | high :: low :: rest =>
    if 0xd800 ≤ high && high < 0xdc00 && 0xdc00 ≤ low && low < 0xe000 then do
      return (← char? (0x10000 + (high - 0xd800) * 0x400 + (low - 0xdc00))) :: (← ofUnits? rest)
    else do return (← char? high) :: (← ofUnits? (low :: rest))
  | [n] => do return [← char? n]

/-! ## Tokens -/

/-- Tokens of JSON texts; a string, a numeral or a name is read as a whole. -/
inductive Token where
  | openArr
  | closeArr
  | openObj
  | closeObj
  | comma
  | colon
  | scalar (v : Json)

namespace Token

/-- The tokens of one sign. -/
def marks : List (Char × Token) :=
  [('[', .openArr), (']', .closeArr), ('\x7b', .openObj), ('\x7d', .closeObj), (',', .comma),
    (':', .colon)]

/-- Whether `c` may stand between tokens. -/
def isGap (c : Char) : Bool := c = ' ' || c = '\n' || c = '\r' || c = '\t'

/-- What the pass over the characters is in the middle of, the latest
    first. -/
inductive Pending where
  | nothing
  | word (chars : List Char)
  | quoted (units : List Nat)
  | escape (units : List Nat)
  /-- A code of four hexadecimal digits, of which `left` are to come. -/
  | code (units : List Nat) (left value : Nat)

/-- The tokens so far, the latest first, and what is pending. -/
structure Scan where
  tokens : List Token := []
  pending : Pending := .nothing

/-- End the word that is pending. -/
def Scan.endWord (s : Scan) : Option (List Token) :=
  match s.pending with
  | .nothing => some s.tokens
  | .word chars => (ofWord? chars.reverse).map fun v => .scalar v :: s.tokens
  | _ => none

/-- One more character. -/
def Scan.step (s : Scan) (c : Char) : Option Scan :=
  match s.pending with
  | .quoted units =>
    if c = '"' then do
      let cs ← ofUnits? units.reverse
      return { tokens := .scalar (.str (String.ofList cs)) :: s.tokens }
    else if c = '\\' then some { s with pending := .escape units }
    else if c.toNat < 0x20 then none
    else some { s with pending := .quoted (c.toNat :: units) }
  | .escape units =>
    if c = 'u' then some { s with pending := .code units 4 0 }
    else (escapes.lookup c).map fun e => { s with pending := .quoted (e.toNat :: units) }
  -- four digits make one unit of the string
  | .code units left value => do
    let n := value * 16 + (← hexValue? c)
    return { s with pending := if left ≤ 1 then .quoted (n :: units) else .code units (left - 1) n }
  | _ => do
    if isGap c then return { tokens := ← s.endWord }
    else if c = '"' then return { tokens := ← s.endWord, pending := .quoted [] }
    else
      -- a mark ends the word before it
      match marks.lookup c, s.pending with
      | some mark, _ => return { tokens := mark :: (← s.endWord) }
      | none, .word chars => return { s with pending := .word (c :: chars) }
      | none, _ => return { s with pending := .word [c] }

/-- The tokens of a text. -/
def scan? (text : String) : Option (List Token) := do
  let s ← text.toList.foldlM Scan.step {}
  return (← s.endWord).reverse

/-! ## Values -/

/-- What was read from the front of `ts`, and the fewer tokens left. -/
abbrev Front (α : Type) (ts : List Token) :=
  Option { p : α × List Token // p.2.length < ts.length }

/-- Put a field in front of later ones. -/
def putField (name : String) (v : Json) (later : List (String × Json)) :
    List (String × Json) :=
  if (later.lookup name).isSome then later else (name, v) :: later

mutual

/-- One value. -/
def value? : (ts : List Token) → Front Json ts
  | .scalar v :: rest => some ⟨(v, rest), by simp⟩
  | .openArr :: .closeArr :: rest => some ⟨(.arr [], rest), by simp only [List.length_cons]; omega⟩
  | .openArr :: rest =>
    match items? rest with
    | none => none
    | some ⟨(items, left), h⟩ =>
      some ⟨(.arr items, left), by simp only [List.length_cons] at h ⊢; omega⟩
  | .openObj :: .closeObj :: rest => some ⟨(.obj [], rest), by simp only [List.length_cons]; omega⟩
  | .openObj :: rest =>
    match fields? rest with
    | none => none
    | some ⟨(fields, left), h⟩ =>
      some ⟨(.obj fields, left), by simp only [List.length_cons] at h ⊢; omega⟩
  | _ => none
termination_by ts => ts.length * 2

/-- The items of an array up to its end. -/
def items? (ts : List Token) : Front (List Json) ts :=
  match value? ts with
  | none => none
  | some ⟨(v, .closeArr :: rest), h⟩ =>
    some ⟨([v], rest), by simp only [List.length_cons] at h ⊢; omega⟩
  | some ⟨(v, .comma :: rest), h⟩ =>
    have hlt : rest.length + 1 < ts.length := h
    match items? rest with
    | none => none
    | some ⟨(items, left), hleft⟩ => some ⟨(v :: items, left), by simp only at hleft ⊢; omega⟩
  | some _ => none
termination_by ts.length * 2 + 1

/-- The fields of an object up to its end. -/
def fields? : (ts : List Token) → Front (List (String × Json)) ts
  | .scalar (.str name) :: .colon :: ts =>
    match value? ts with
    | none => none
    | some ⟨(v, .closeObj :: rest), h⟩ =>
      some ⟨([(name, v)], rest), by simp only [List.length_cons] at h ⊢; omega⟩
    | some ⟨(v, .comma :: rest), h⟩ =>
      have hlt : rest.length + 1 < ts.length := h
      match fields? rest with
      | none => none
      | some ⟨(fields, left), hleft⟩ =>
        some ⟨(putField name v fields, left), by simp only [List.length_cons] at hleft ⊢; omega⟩
    | some _ => none
  | _ => none
termination_by ts => ts.length * 2 + 1

end

end Token

/-- The value that a text holds, with nothing after it. -/
def parse? (text : String) : Option Json := do
  match Token.value? (← Token.scan? text) with
  | some ⟨(v, []), _⟩ => some v
  | _ => none

/-! ## Writing -/

/-- The escape of a character below the space: its code in four digits. -/
def controlEscape (c : Char) : String :=
  let digits := Nat.toDigits 16 c.toNat
  "\\u" ++ String.ofList (List.replicate (4 - digits.length) '0' ++ digits)

/-- A character as it stands between quotes. -/
def quotedChar (c : Char) : String :=
  if c = '"' then "\\\""
  else if c = '\\' then "\\\\"
  else if c.toNat < 0x20 then controlEscape c
  else c.toString

/-- Write a text between quotes behind `out`. -/
def writeQuoted (out s : String) : String :=
  s.toList.foldl (fun out c => out ++ quotedChar c) (out ++ "\"") ++ "\""

mutual

/-- Write a value behind `out`. -/
def write (out : String) : Json → String
  | .null => out ++ "null"
  | .bool true => out ++ "true"
  | .bool false => out ++ "false"
  | .int n => out ++ Text.decimal n
  | .decimal numeral => out ++ numeral
  | .str s => writeQuoted out s
  | .arr items => writeItems (out ++ "[") items ++ "]"
  | .obj fields => writeFields (out ++ "\x7b") fields ++ "\x7d"

/-- Write the items of an array, with commas between them. -/
def writeItems (out : String) : List Json → String
  | [] => out
  | [v] => write out v
  | v :: rest => writeItems (write out v ++ ",") rest

/-- Write the fields of an object, with commas between them. -/
def writeFields (out : String) : List (String × Json) → String
  | [] => out
  | [(name, v)] => write (writeQuoted out name ++ ":") v
  | (name, v) :: rest => writeFields (write (writeQuoted out name ++ ":") v ++ ",") rest

end

/-- The text of a value, without gaps. -/
def text (j : Json) : String := j.write ""

end SequentProver.Json
