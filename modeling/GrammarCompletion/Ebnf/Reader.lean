import GrammarCompletion.Ebnf.Document
import GrammarCompletion.Ebnf.Parser

/-! The notation of grammar text. A rule needs no end mark: a sequence stops in front of the name
and the assignment sign of the next rule. Layout may stand between any two tokens but not inside
a bracketed name. Groups nest, so the parser of items is given to every parser that may meet one;
`itemUpTo` closes the circle for groups up to a given depth, and as each group takes a bracket,
no text nests deeper than it has characters. -/

open GrammarCompletion.Ebnf.Parser

namespace GrammarCompletion.Ebnf

def identifier : Parser String :=
  named .identifier (String.ofList <$> lexeme identifier?)

def name (role : Construct) : Parser String :=
  named role <|
    (do word "<"; let id ← identifier; word ">"; return id) <|> identifier

def assign : Parser Unit := word "::=" <|> word ":="

def ruleStart : Parser String := do
  let id ← name .ruleName
  skipLayout
  assign
  return id

def repetition : Parser Repetition :=
  named .repetition <|
    (do word "*"; return .zeroOrMore) <|> (do word "+"; return .oneOrMore) <|>
      (do word "?"; return .optional)

section Nested

variable (item : Parser Item)

def sequence : Parser (List Item) :=
  named .sequence <| spaced do
    absent ruleStart
    item

def alternation : Parser (List (List Item)) :=
  named .alternation do
    let first ← sequence item
    skipLayout
    let others ← spaced do
      word "|"
      skipLayout
      sequence item
    return first :: others

def group : Parser (List (List Item)) :=
  named .group do
    word "("
    skipLayout
    let alternatives ← alternation item
    skipLayout
    word ")"
    return alternatives

def terminal (construct : Construct) (recognise : List Char → Option (List Char)) :
    Parser String :=
  named construct (String.ofList <$> lexeme recognise)

def primary : Parser (Option Repetition → Item) :=
  (Item.group <$> group item) <|>
  (Item.terminal <$> terminal .literal literal?) <|>
  (Item.terminal <$> terminal .charClass charClass?) <|>
  (Item.terminal <$> terminal .pattern pattern?) <|>
  (Item.reference <$> name .reference)

def itemWith : Parser Item :=
  named .item do
    let complete ← primary item
    skipLayout
    let operator ← optional repetition
    return complete operator

def rule : Parser Definition :=
  named .rule do
    let id ← ruleStart
    skipLayout
    let body ← alternation item
    skipLayout
    let _ ← optional (word ";")
    return ⟨id, body⟩

def grammar : Parser Document :=
  named .grammar do
    skipLayout
    let definitions ← spaced (rule item)
    skipLayout
    named .endOfInput atEnd
    return definitions

end Nested

/-- Items whose groups nest less than `depth` deep. -/
def itemUpTo : Nat → Parser Item
  | 0 => fail
  | depth + 1 => itemWith (itemUpTo depth)

def readText (cs : List Char) : Outcome Document :=
  grammar (itemUpTo (cs.length + 1)) ⟨0, cs⟩

def parse (text : String) : Except Fault Document :=
  match readText text.toList with
  | ⟨some (document, _), _⟩ => .ok document
  | ⟨none, attempts⟩ => .error (.ofAttempts attempts)

end GrammarCompletion.Ebnf
