import SequentProver.Digest.Sha256

/-! # Content digests

    A value is digested through named fields: each is written on a line of
    its own, and the hash is taken of the UTF-8 bytes of all lines. -/

namespace SequentProver

/-- A field name and its value. -/
abbrev ContentField := String × String

namespace Content

/-- One field per value, all under one name. -/
def fields (name : String) (values : List String) : List ContentField :=
  values.map fun v => (name, v)

/-- A field that may be absent. -/
def optional (name : String) (value : Option String) : List ContentField :=
  (value.map fun v => (name, v)).toList

/-- The line of a field. -/
def line (f : ContentField) : String := f.1 ++ ":" ++ f.2 ++ "\n"

/-- All lines, in the order of the fields. -/
def text (fs : List ContentField) : String := String.join (fs.map line)

/-- The bytes that are hashed. -/
def bytes (fs : List ContentField) : List UInt8 := (text fs).toUTF8.toList

/-- The digest: sixty-four hexadecimal digits. -/
def digest (fs : List ContentField) : String := Sha256.hex (Sha256.hash (bytes fs))

end Content

end SequentProver
