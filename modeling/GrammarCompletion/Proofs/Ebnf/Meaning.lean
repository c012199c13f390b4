import GrammarCompletion.Ebnf.Document
import GrammarCompletion.Grammar.Rule

/-! The words that the phrases of a document stand for, read off the notation itself: a group
offers its sequences, an operator bounds how often its item occurs, and a reference stands for
the body of the rule it names. A name that no rule defines is a token of its own. -/

namespace GrammarCompletion.Ebnf

namespace Item

def repetition : Item → Option Repetition
  | reference _ repetition => repetition
  | terminal _ repetition => repetition
  | group _ repetition => repetition

def bare : Item → Item
  | reference name _ => reference name none
  | terminal lexeme _ => terminal lexeme none
  | group alternatives _ => group alternatives none

theorem bare_eq_self {item : Item} (h : item.repetition = none) : item.bare = item := by
  cases item <;> simp_all [bare, repetition]

end Item

def Repetition.Admits : Repetition → Nat → Prop
  | optional, count => count ≤ 1
  | zeroOrMore, _ => True
  | oneOrMore, count => 1 ≤ count

inductive Phrase where
  | item (item : Item)
  | sequence (items : List Item)
  | choice (alternatives : List (List Item))

/-- The word is one of those that the phrase stands for in the document. -/
inductive Yields (document : Document) : Phrase → List Symbol → Prop where
  | token {name : String} (h : name ∉ document.map Definition.name) :
      Yields document (.item (.reference name none)) [name]
  | reference {definition : Definition} {word : List Symbol} (h : definition ∈ document)
      (body : Yields document (.choice definition.body) word) :
      Yields document (.item (.reference definition.name none)) word
  | terminal (lexeme : String) : Yields document (.item (.terminal lexeme none)) [lexeme]
  | group {alternatives : List (List Item)} {word : List Symbol}
      (body : Yields document (.choice alternatives) word) :
      Yields document (.item (.group alternatives none)) word
  | repeated {item : Item} {r : Repetition} {words : List (List Symbol)}
      (hr : item.repetition = some r) (count : r.Admits words.length)
      (occurrences : ∀ word ∈ words, Yields document (.item item.bare) word) :
      Yields document (.item item) words.flatten
  | nil : Yields document (.sequence []) []
  | cons {item : Item} {items : List Item} {first rest : List Symbol}
      (head : Yields document (.item item) first) (tail : Yields document (.sequence items) rest) :
      Yields document (.sequence (item :: items)) (first ++ rest)
  | choice {items : List Item} {alternatives : List (List Item)} {word : List Symbol}
      (h : items ∈ alternatives) (chosen : Yields document (.sequence items) word) :
      Yields document (.choice alternatives) word

theorem yields_repeated_iff {document : Document} {item : Item} {r : Repetition}
    (hr : item.repetition = some r) {word : List Symbol} :
    Yields document (.item item) word ↔
      ∃ words : List (List Symbol), word = words.flatten ∧ r.Admits words.length ∧
        ∀ w ∈ words, Yields document (.item item.bare) w := by
  constructor
  · intro h
    cases h with
    | repeated hr' count occurrences =>
      obtain rfl : r = _ := Option.some.inj (hr.symm.trans hr')
      exact ⟨_, rfl, count, occurrences⟩
    | token | reference | terminal | group => simp [Item.repetition] at hr
  · rintro ⟨words, rfl, count, occurrences⟩
    exact .repeated hr count occurrences

end GrammarCompletion.Ebnf
