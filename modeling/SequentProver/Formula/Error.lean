import SequentProver.Formula.Ty
import SequentProver.Text.Quoted

/-! # What can be wrong with a formula

    The reasons for refusing a text, a name or a formula, and the message
    that goes with each. -/

namespace SequentProver

/-- Why a text is not a formula. -/
inductive Complaint where
  | unexpectedCharacter (c : Char)
  | unexpectedEnd
  | trailingInput
  | integerOutOfRange (numeral : String)
  | expectedExpression
  | expectedRelation
  | expectedType
  | expectedBinder
  | expectedColon
  | expectedDot
  | expectedClosing
  | expectedPowerSetOpening
  deriving DecidableEq, Inhabited

namespace Complaint

/-- What is said about a text that cannot be read. -/
def message : Complaint → String
  | .unexpectedCharacter c => "unexpected character " ++ Text.quotedSingle c
  | .unexpectedEnd => "unexpected end of input"
  | .trailingInput => "unexpected trailing input"
  | .integerOutOfRange numeral => "integer literal out of range: " ++ numeral
  | .expectedExpression => "expected an expression"
  | .expectedRelation => "expected a relation"
  | .expectedType => "expected a type"
  | .expectedBinder => "expected bound identifier"
  | .expectedColon => "expected ':' after bound identifier"
  | .expectedDot => "expected '·' before quantifier body"
  | .expectedClosing => "expected ')'"
  | .expectedPowerSetOpening => "expected '(' after ℙ"

end Complaint

/-- The construct whose operands have the wrong types. -/
inductive Construct where
  | relation
  | equality
  | negation
  | arithmetic
  deriving DecidableEq, Inhabited

namespace Construct

/-- The name of the construct in a message. -/
def text : Construct → String
  | .relation => "relation"
  | .equality => "equality"
  | .negation => "negation"
  | .arithmetic => "arithmetic"

end Construct

/-- Why a formula, a name or an environment is refused.  Offsets count
    bytes of the text. -/
inductive FormulaError where
  | invalidName (name : String)
  | unreadable (offset : Nat) (complaint : Complaint)
  | unboundName (name : String)
  | typeMismatch (construct : Construct) (expected actual : Ty)
  | nameClash (name : String)
  | duplicateBinder (name : String)
  deriving DecidableEq, Inhabited

namespace FormulaError

/-- The name of the cause. -/
def kind : FormulaError → String
  | .invalidName _ => "InvalidIdentifier"
  | .unreadable _ _ => "Parse"
  | .unboundName _ => "UnboundIdentifier"
  | .typeMismatch _ _ _ => "TypeMismatch"
  | .nameClash _ => "NameClash"
  | .duplicateBinder _ => "DuplicateBinder"

/-- What is said to the user. -/
def message : FormulaError → String
  | .invalidName name => "invalid identifier: " ++ Text.quoted name
  | .unreadable offset complaint =>
    "parse error at offset " ++ Nat.repr offset ++ ": " ++ complaint.message
  | .unboundName name => "unbound identifier: " ++ name
  | .typeMismatch construct expected actual =>
    "type mismatch in " ++ construct.text ++ ": expected " ++ expected.text ++
      ", got " ++ actual.text
  | .nameClash name => "name clash: " ++ name ++ " is already bound"
  | .duplicateBinder name => "duplicate bound identifier: " ++ name

end FormulaError

end SequentProver
