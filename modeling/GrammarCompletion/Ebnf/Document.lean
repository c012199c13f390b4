/-! What grammar text is made of: lexemes, and definitions whose bodies nest groups and repetitions of
them. Each recogniser gives the lexeme at the front of the text. -/

namespace GrammarCompletion.Ebnf

def isIdentifierStart (c : Char) : Bool := c.isAlpha || c == '_'

def isIdentifierRest (c : Char) : Bool := c.isAlphanum || c == '_' || c == '-'

def identifier? : List Char → Option (List Char)
  | [] => none
  | c :: cs => if isIdentifierStart c then some (c :: cs.takeWhile isIdentifierRest) else none

/-- The text up to and with the first `close` that no backslash hides. -/
def throughClose? (close : Char) : List Char → Option (List Char)
  | [] => none
  | c :: cs =>
    if c = close then some [c]
    else if c = '\\' then
      match cs with
      | [] => none
      | d :: ds => (throughClose? close ds).map fun body => c :: d :: body
    else (throughClose? close cs).map (c :: ·)

def literal? : List Char → Option (List Char)
  | [] => none
  | c :: cs => if c = '"' ∨ c = '\'' then (throughClose? c cs).map (c :: ·) else none

def charClass? : List Char → Option (List Char)
  | [] => none
  | c :: cs => if c = '[' then (throughClose? ']' cs).map (c :: ·) else none

/-- A pattern is not empty: two slashes in a row are none. -/
def pattern? : List Char → Option (List Char)
  | [] => none
  | c :: cs =>
    if c = '/' ∧ cs.head? ≠ some '/' then (throughClose? '/' cs).map (c :: ·) else none

def word? (word cs : List Char) : Option (List Char) :=
  if word.isPrefixOf cs then some word else none

inductive Repetition where
  | optional
  | zeroOrMore
  | oneOrMore
  deriving DecidableEq, Repr

inductive Item where
  | reference (name : String) (repetition : Option Repetition)
  | terminal (lexeme : String) (repetition : Option Repetition)
  | group (alternatives : List (List Item)) (repetition : Option Repetition)

structure Definition where
  name : String
  body : List (List Item)

abbrev Document := List Definition

end GrammarCompletion.Ebnf
