import SequentProver.Text.Decimal

/-! # Replay configuration

    Three switches, all on unless a text says otherwise.  The text has a
    line for each setting, `name = true` or `name = false`; blank lines and
    comments after `#` may stand between and behind.  Names may be quoted.

    Route:
    1. `Setting` and `ReplayConfig`;
    2. the parts of a line: blanks, comments, names, values;
    3. `ReplayConfig.ofText` over the lines. -/

namespace SequentProver

/-- How a recorded proof is replayed. -/
structure ReplayConfig where
  /-- Try the recorded rule before asking its reasoner again. -/
  reuseFirst : Bool := true
  /-- Where a recorded rule was not applied, ask its reasoner again. -/
  rerunReasoners : Bool := true
  /-- Put recorded comments on the replayed nodes. -/
  keepComments : Bool := true
  deriving DecidableEq, Inhabited

/-- Why there is no configuration. -/
inductive ConfigError where
  | unreadable
  | allOff
  deriving DecidableEq

namespace ConfigError

/-- The message, where there is a fixed one. -/
def message? : ConfigError → Option String
  | .unreadable => none
  | .allOff =>
    some "invalid replay config: reuse_first and rerun_reasoners cannot both be off"

end ConfigError

namespace ReplayConfig

/-- A replay that neither reuses nor reruns is refused. -/
def validate (c : ReplayConfig) : Except ConfigError Unit :=
  if c.reuseFirst || c.rerunReasoners then .ok () else .error .allOff

/-! ## Settings -/

/-- The settings by which a replay is told what to do. -/
inductive Setting where
  | reuseFirst
  | rerunReasoners
  | keepComments
  deriving DecidableEq

/-- The setting of a name. -/
def Setting.ofName? : String → Option Setting
  | "reuse_first" => some .reuseFirst
  | "rerun_reasoners" => some .rerunReasoners
  | "keep_comments" => some .keepComments
  | _ => none

/-- Set a switch. -/
def set (c : ReplayConfig) (s : Setting) (value : Bool) : ReplayConfig :=
  match s with
  | .reuseFirst => { c with reuseFirst := value }
  | .rerunReasoners => { c with rerunReasoners := value }
  | .keepComments => { c with keepComments := value }

/-! ## Parts of a line -/

/-- Space and tab. -/
def isGap (c : Char) : Bool := c = ' ' || c = '\t'

/-- Whether a character may stand in a comment: no control but the tab. -/
def isCommentChar (c : Char) : Bool := c = '\t' || (' ' ≤ c && c ≠ Char.ofNat 0x7F)

/-- Whether nothing but gaps and a comment is left. -/
def isLineEnd (cs : List Char) : Bool :=
  match cs.dropWhile isGap with
  | [] => true
  | '#' :: rest => rest.all isCommentChar
  | _ => false

/-- The value of a hexadecimal digit. -/
def hexDigit? (c : Char) : Option Nat :=
  if '0' ≤ c && c ≤ '9' then some (c.toNat - '0'.toNat)
  else if 'a' ≤ c && c ≤ 'f' then some (c.toNat - 'a'.toNat + 10)
  else if 'A' ≤ c && c ≤ 'F' then some (c.toNat - 'A'.toNat + 10)
  else none

/-- The character with the code written in hexadecimal digits. -/
def coded? (ds : List Char) : Option Char := do
  let values ← ds.mapM hexDigit?
  let code := values.foldl (fun n d => n * 16 + d) 0
  if code.isValidChar then return Char.ofNat code else none

/-- The rest of a name in double quotes, up to the closing one. -/
def doubleQuoted? : List Char → Option (List Char × List Char)
  | [] => none
  | '"' :: rest => some ([], rest)
  | '\\' :: 'b' :: rest => (doubleQuoted? rest).map fun r => (Char.ofNat 8 :: r.1, r.2)
  | '\\' :: 't' :: rest => (doubleQuoted? rest).map fun r => ('\t' :: r.1, r.2)
  | '\\' :: 'n' :: rest => (doubleQuoted? rest).map fun r => ('\n' :: r.1, r.2)
  | '\\' :: 'f' :: rest => (doubleQuoted? rest).map fun r => (Char.ofNat 12 :: r.1, r.2)
  | '\\' :: 'r' :: rest => (doubleQuoted? rest).map fun r => ('\r' :: r.1, r.2)
  | '\\' :: '"' :: rest => (doubleQuoted? rest).map fun r => ('"' :: r.1, r.2)
  | '\\' :: '\\' :: rest => (doubleQuoted? rest).map fun r => ('\\' :: r.1, r.2)
  | '\\' :: 'u' :: a :: b :: c :: d :: rest => do
    let code ← coded? [a, b, c, d]
    (doubleQuoted? rest).map fun r => (code :: r.1, r.2)
  | '\\' :: 'U' :: a :: b :: c :: d :: e :: f :: g :: h :: rest => do
    let code ← coded? [a, b, c, d, e, f, g, h]
    (doubleQuoted? rest).map fun r => (code :: r.1, r.2)
  | '\\' :: _ => none
  | c :: rest =>
    if isCommentChar c then (doubleQuoted? rest).map fun r => (c :: r.1, r.2) else none

/-- The rest of a name in single quotes, up to the closing one. -/
def singleQuoted? : List Char → Option (List Char × List Char)
  | [] => none
  | '\'' :: rest => some ([], rest)
  | c :: rest =>
    if isCommentChar c then (singleQuoted? rest).map fun r => (c :: r.1, r.2) else none

/-- Whether a character may stand in a name without quotes. -/
def isBareChar (c : Char) : Bool :=
  ('a' ≤ c && c ≤ 'z') || ('A' ≤ c && c ≤ 'Z') || ('0' ≤ c && c ≤ '9') || c = '_' || c = '-'

/-- A name and what follows it. -/
def name? : List Char → Option (String × List Char)
  | '"' :: rest => (doubleQuoted? rest).map fun r => (String.ofList r.1, r.2)
  | '\'' :: rest => (singleQuoted? rest).map fun r => (String.ofList r.1, r.2)
  | cs => some (String.ofList (cs.takeWhile isBareChar), cs.dropWhile isBareChar)

/-- A value and what follows it. -/
def value? : List Char → Option (Bool × List Char)
  | 't' :: 'r' :: 'u' :: 'e' :: rest => some (true, rest)
  | 'f' :: 'a' :: 'l' :: 's' :: 'e' :: rest => some (false, rest)
  | _ => none

/-- The setting of a line that is not blank. -/
def setting? (cs : List Char) : Option (Setting × Bool) := do
  let (name, afterName) ← name? (cs.dropWhile isGap)
  let setting ← Setting.ofName? name
  match afterName.dropWhile isGap with
  | '=' :: rest =>
    let (value, afterValue) ← value? (rest.dropWhile isGap)
    if isLineEnd afterValue then return (setting, value) else none
  | _ => none

/-! ## The whole text -/

/-- Cut at line feeds; a carriage return right before one belongs to it. -/
def lines : List Char → List (List Char)
  | [] => [[]]
  | '\n' :: rest => [] :: lines rest
  | '\r' :: '\n' :: rest => [] :: lines rest
  | c :: rest =>
    match lines rest with
    | [] => [[c]]
    | line :: more => (c :: line) :: more

/-- The settings in the order of the lines; a setting may occur once. -/
def settings? (seen : List Setting) : List (List Char) → Option (List (Setting × Bool))
  | [] => some []
  | line :: rest =>
    if isLineEnd line then settings? seen rest
    else do
      let (setting, value) ← setting? line
      if setting ∈ seen then none
      else do
        let more ← settings? (setting :: seen) rest
        return (setting, value) :: more

/-- A byte order mark at the front is skipped. -/
def withoutMark : List Char → List Char
  | c :: rest => if c = Char.ofNat 0xFEFF then rest else c :: rest
  | [] => []

/-- Read a configuration and validate it. -/
def ofText (text : String) : Except ConfigError ReplayConfig :=
  match settings? [] (lines (withoutMark text.toList)) with
  | none => .error .unreadable
  | some settings =>
    let config : ReplayConfig := settings.foldl (fun c s => set c s.1 s.2) {}
    config.validate.map fun _ => config

end ReplayConfig

end SequentProver
