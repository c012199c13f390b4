import GrammarCompletion.Decimal.Layout
import GrammarCompletion.Json.Number
import GrammarCompletion.Text.Quoted

/-! What can be wrong with JSON text: it is no JSON, or it holds another value than was asked for.
Readers report the first fault from the left. The faults and their messages follow the JSON library,
which is not part of this repository. -/

namespace GrammarCompletion.Json

inductive Shape where
  | map
  | sequence
  | string
  | offset
  | node
  deriving DecidableEq, Repr

inductive Found where
  | null
  | boolean (b : Bool)
  | number (n : Number)
  | string (s : String)
  | sequence
  | map
  deriving DecidableEq, Repr

inductive Fault where
  | endInValue
  | endInList
  | endInObject
  | endInString
  | noValue
  | misspeltWord
  | invalidNumber
  | numberOutOfRange
  | keyNotString
  | trailingComma
  | noColon
  | noListEnd
  | noObjectEnd
  | controlCharacter
  | invalidEscape
  | loneSurrogate
  | halfSurrogatePair
  | trailingCharacters
  | wrongType (found : Found) (expected : Shape)
  | negativeOffset (n : Nat)
  | duplicateField (name : String)
  | missingField (name : String)
  | tooShort (missing : Nat)
  deriving DecidableEq, Repr

/-- Doubles in messages are positional from a hundred-thousandth up to sixteen whole digits. -/
def doubleLayout : Decimal.Layout := ⟨-5, 15⟩

def Shape.description : Shape → String
  | map => "a map"
  | sequence => "a sequence"
  | string => "a string"
  | offset => "usize"
  | node => "struct RawNode"

def ticked (text : String) : String := "\x60" ++ text ++ "\x60"

def Found.description : Found → String
  | null => "null"
  | boolean b => "boolean " ++ ticked (if b then "true" else "false")
  | number (.natural n) => "integer " ++ ticked (toString n)
  | number (.negative n) => "integer " ++ ticked ("-" ++ toString n)
  | number (.double bits) => "floating point " ++ ticked (doubleLayout.writeBits bits.toNat)
  | string s => "string " ++ Text.quoted s
  | sequence => "sequence"
  | map => "map"

def Fault.message : Fault → String
  | endInValue => "EOF while parsing a value"
  | endInList => "EOF while parsing a list"
  | endInObject => "EOF while parsing an object"
  | endInString => "EOF while parsing a string"
  | noValue => "expected value"
  | misspeltWord => "expected ident"
  | invalidNumber => "invalid number"
  | numberOutOfRange => "number out of range"
  | keyNotString => "key must be a string"
  | trailingComma => "trailing comma"
  | noColon => "expected " ++ ticked ":"
  | noListEnd => "expected " ++ ticked "," ++ " or " ++ ticked "]"
  | noObjectEnd => "expected " ++ ticked "," ++ " or " ++ ticked "\x7d"
  | controlCharacter => "control character (\\u0000-\\u001F) found while parsing a string"
  | invalidEscape => "invalid escape"
  | loneSurrogate => "lone leading surrogate in hex escape"
  | halfSurrogatePair => "unexpected end of hex escape"
  | trailingCharacters => "trailing characters"
  | wrongType found expected =>
    "invalid type: " ++ found.description ++ ", expected " ++ expected.description
  | negativeOffset n =>
    "invalid value: integer " ++ ticked ("-" ++ toString n) ++ ", expected " ++
      Shape.offset.description
  | duplicateField name => "duplicate field " ++ ticked name
  | missingField name => "missing field " ++ ticked name
  | tooShort missing =>
    "invalid length " ++ toString missing ++ ", expected " ++ Shape.node.description ++
      " with 5 elements"

end GrammarCompletion.Json
