/-! Why a terminal gives no list of strings: it is misspelt, or it is well spelt but stands for
more strings than can be listed. -/

namespace GrammarCompletion.Terminal

inductive Defect where
  | missingOpeningQuote
  | missingClosingQuote
  | unescapedQuote
  | danglingBackslash
  | unknownEscape (c : Char)
  | truncatedEscape
  | nonHexDigits (digits : List Char)
  | invalidCodePoint (digits : List Char)
  | unterminatedBraces
  | invalidBraces
  | unterminatedClass
  | reversedRange (low high : Char)
  | emptyClass
  | notTerminal
  deriving DecidableEq, Repr

inductive OpenEnded where
  | pattern
  | token
  | negatedClass
  | tooManyMembers
  deriving DecidableEq, Repr

inductive Obstacle where
  | malformed (defect : Defect)
  | notEnumerable (cause : OpenEnded)
  deriving DecidableEq, Repr

def classLimit : Nat := 32

def Defect.reason : Defect → String
  | .missingOpeningQuote => "missing opening quote"
  | .missingClosingQuote => "missing closing quote"
  | .unescapedQuote => "unescaped quote inside literal"
  | .danglingBackslash => "dangling backslash"
  | .unknownEscape c => "unknown escape sequence \\" ++ c.toString
  | .truncatedEscape => "truncated escape sequence"
  | .nonHexDigits digits => "non-hex digits in escape " ++ String.ofList digits
  | .invalidCodePoint digits => "invalid code point " ++ String.ofList digits
  | .unterminatedBraces => "unterminated \\u\x7b...\x7d escape"
  | .invalidBraces => "invalid \\u\x7b...\x7d escape"
  | .unterminatedClass => "unterminated character class"
  | .reversedRange low high => "reversed range " ++ low.toString ++ "-" ++ high.toString
  | .emptyClass => "empty character class"
  | .notTerminal => "not a terminal"

def OpenEnded.reason : OpenEnded → String
  | .pattern => "regular expressions denote open-ended languages"
  | .token => "token spelling is defined by the lexer"
  | .negatedClass => "negated character class"
  | .tooManyMembers =>
    "character class has more than " ++ toString classLimit ++ " members"

namespace Obstacle

def reason : Obstacle → String
  | malformed defect => defect.reason
  | notEnumerable cause => cause.reason

def message (terminal : String) : Obstacle → String
  | malformed defect => "malformed terminal literal " ++ terminal ++ ": " ++ defect.reason
  | notEnumerable cause => "terminal " ++ terminal ++ " is not enumerable: " ++ cause.reason

def code : Obstacle → String
  | malformed _ => "bnf_complete::malformed_terminal_literal"
  | notEnumerable _ => "bnf_complete::non_enumerable_terminal"

end Obstacle

end GrammarCompletion.Terminal
