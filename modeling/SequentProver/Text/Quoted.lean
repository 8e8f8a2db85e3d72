import SequentProver.Text.Shapeless

/-! # Quoted text

    How a message shows a piece of text that may hold anything: between
    quotes, with the quote and the backslash escaped, four controls by
    their short escapes, and every shapeless character by its code. -/

namespace SequentProver.Text

/-- The escape by code: lower-case hexadecimal digits between braces. -/
def codeEscape (c : Char) : String :=
  "\\u\x7b" ++ String.ofList (Nat.toDigits 16 c.toNat) ++ "\x7d"

/-- One character of quoted text; `quote` is the mark around the whole. -/
def quotedChar (quote c : Char) : String :=
  if c = Char.ofNat 0 then "\\0"
  else if c = '\t' then "\\t"
  else if c = '\r' then "\\r"
  else if c = '\n' then "\\n"
  else if c = '\\' then "\\\\"
  else if c = quote then "\\" ++ c.toString
  else if isShapeless c then codeEscape c
  else c.toString

/-- A text between double quotes. -/
def quoted (s : String) : String :=
  "\"" ++ String.join (s.toList.map (quotedChar '"')) ++ "\""

/-- A character between single quotes. -/
def quotedSingle (c : Char) : String :=
  "'" ++ quotedChar '\'' c ++ "'"

end SequentProver.Text
