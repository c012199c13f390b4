import GrammarCompletion.Ebnf.Document
import GrammarCompletion.Grammar.Rule

/-! Flat rules from definitions. Each group and each repetition gets a rule of its own, named
after the definition it stands in and numbered from one, inner ones first. The rules made so far
are passed along with the number of the last name. -/

namespace GrammarCompletion.Ebnf

def madeName (owner : String) (n : Nat) : String := "%" ++ owner ++ "[" ++ toString n ++ "]"

/-- The rules made so far for one definition, and how many names have been given out. -/
structure Made where
  count : Nat := 0
  rules : List Rule := []

namespace Made

def nextName (owner : String) (made : Made) : Symbol × Made :=
  (madeName owner (made.count + 1), { made with count := made.count + 1 })

def push (name : Symbol) (alternatives : List Alternative) (made : Made) : Made :=
  { made with rules := made.rules ++ [⟨name, alternatives⟩] }

end Made

def make (owner : String) (alternatives : Symbol → List Alternative) (made : Made) :
    Symbol × Made :=
  let (name, made) := made.nextName owner
  (name, made.push name (alternatives name))

def Repetition.alternatives (symbol self : Symbol) : Repetition → List Alternative
  | optional => [[symbol], []]
  | zeroOrMore => [[symbol, self], []]
  | oneOrMore => [[symbol, self], [symbol]]

def repeated (owner : String) (repetition : Option Repetition) (symbol : Symbol)
    (made : Made) : Symbol × Made :=
  match repetition with
  | none => (symbol, made)
  | some r => make owner (fun self => r.alternatives symbol self) made

mutual

def Item.lower (owner : String) : Item → Made → Symbol × Made
  | .reference name repetition, made => repeated owner repetition name made
  | .terminal lexeme repetition, made => repeated owner repetition lexeme made
  | .group alternatives repetition, made =>
    let (body, made) := lowerAlternatives owner alternatives made
    let (symbol, made) := make owner (fun _ => body) made
    repeated owner repetition symbol made

def lowerSequence (owner : String) : List Item → Made → Alternative × Made
  | [], made => ([], made)
  | item :: items, made =>
    let (symbol, made) := item.lower owner made
    let (symbols, made) := lowerSequence owner items made
    (symbol :: symbols, made)

def lowerAlternatives (owner : String) : List (List Item) → Made → List Alternative × Made
  | [], made => ([], made)
  | items :: rest, made =>
    let (alternative, made) := lowerSequence owner items made
    let (alternatives, made) := lowerAlternatives owner rest made
    (alternative :: alternatives, made)

end

def Definition.lower (definition : Definition) : List Rule :=
  let (alternatives, made) := lowerAlternatives definition.name definition.body {}
  ⟨definition.name, alternatives⟩ :: made.rules

def Document.lower (document : Document) : List Rule := document.flatMap Definition.lower

end GrammarCompletion.Ebnf
