import SequentProver.Formula.Pred
import SequentProver.Formula.Error
import SequentProver.Text.Blank

/-! # Tokens

    The symbols formulas are written with.  Most have a mathematical and
    an ASCII spelling; words are names unless they are reserved.  A text
    is cut from left to right: blanks are skipped, then the first fitting
    symbol of the table is taken, or a run of digits, or a word. -/

namespace SequentProver

/-- Tokens of the formula language.  Signs that have two spellings are one
    token. -/
inductive Token where
  | ident (name : String)
  | int (digits : String)
  | opening
  | closing
  | comma
  | colon
  | dot
  | top
  | bottom
  | not
  | connective (op : Connective)
  | quantifier (q : Quantifier)
  | relation (op : Relation)
  | plus
  | minus
  | times
  | bool (value : Bool)
  | intType
  | boolType
  | powerSet
  | cross
  deriving DecidableEq, Inhabited

/-- A token and the byte offset where its spelling starts. -/
structure Lexeme where
  offset : Nat
  token : Token
  deriving DecidableEq, Inhabited

namespace Token

/-- The spellings made of symbols; a longer one stands before every
    spelling it starts with. -/
def symbols : List (String × Token) :=
  [("<=>", .connective .iff), ("=>", .connective .imp), ("<=", .relation .le),
    (">=", .relation .ge), ("/=", .relation .notEq), ("!=", .relation .notEq),
    ("/\\", .connective .and), ("\\/", .connective .or), ("**", .cross),
    ("(", .opening), (")", .closing), (",", .comma), (":", .colon), (".", .dot), ("·", .dot),
    ("⊤", .top), ("⊥", .bottom), ("¬", .not),
    ("∧", .connective .and), ("&", .connective .and),
    ("∨", .connective .or), ("|", .connective .or),
    ("⇒", .connective .imp), ("⇔", .connective .iff),
    ("∀", .quantifier .universal), ("∃", .quantifier .existential),
    ("=", .relation .eq), ("≠", .relation .notEq), ("<", .relation .lt), ("≤", .relation .le),
    (">", .relation .gt), ("≥", .relation .ge),
    ("+", .plus), ("-", .minus), ("−", .minus), ("*", .times), ("∗", .times),
    ("ℤ", .intType), ("ℙ", .powerSet), ("×", .cross)]

/-- The reserved words. -/
def keywords : List (String × Token) :=
  [("true", .top), ("false", .bottom), ("not", .not), ("or", .connective .or),
    ("forall", .quantifier .universal), ("exists", .quantifier .existential),
    ("TRUE", .bool true), ("FALSE", .bool false), ("BOOL", .boolType), ("Z", .intType),
    ("POW", .powerSet)]

/-- A word is a reserved word or a name. -/
def ofWord (word : String) : Token := (keywords.lookup word).getD (.ident word)

/-- The token at the front of `c :: rest`, and how many characters of
    `rest` belong to its spelling. -/
def atFront? (c : Char) (rest : List Char) : Option (Token × Nat) :=
  match symbols.find? fun s => s.1.toList.isPrefixOf (c :: rest) with
  | some (spelling, token) => some (token, spelling.length - 1)
  | none =>
    if Text.isDigit c then
      let digits := rest.takeWhile Text.isDigit
      some (.int (String.ofList (c :: digits)), digits.length)
    else if isNameStart c then
      let word := rest.takeWhile isNameChar
      some (ofWord (String.ofList (c :: word)), word.length)
    else none

/-- Number of bytes of the UTF-8 encoding. -/
def byteLength : List Char → Nat
  | [] => 0
  | c :: rest => c.utf8Size + byteLength rest

/-- Cut the characters into tokens; `offset` is the byte position of the
    first character.  On failure the offset of the character that starts
    no token comes with the complaint. -/
def scan (offset : Nat) : List Char → Except (Nat × Complaint) (List Lexeme)
  | [] => .ok []
  | c :: rest =>
    if Text.isBlank c then scan (offset + c.utf8Size) rest
    else
      match atFront? c rest with
      | none => .error (offset, .unexpectedCharacter c)
      | some (token, n) =>
        match scan (offset + c.utf8Size + byteLength (rest.take n)) (rest.drop n) with
        | .error e => .error e
        | .ok lexemes => .ok (⟨offset, token⟩ :: lexemes)
termination_by cs => cs.length
decreasing_by
  · simp
  · simp only [List.length_drop, List.length_cons]
    omega

/-- The tokens of a text with their byte offsets. -/
def tokenize (text : String) : Except (Nat × Complaint) (List Lexeme) :=
  scan 0 text.toList

end Token

end SequentProver
