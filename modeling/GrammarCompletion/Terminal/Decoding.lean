import GrammarCompletion.Grammar.Rule
import GrammarCompletion.Terminal.Escape

/-! The strings that a terminal stands for. Both quotes are allowed around a literal, and the closing
quote is the one that opened. In a character class escapes are read first; an unescaped hyphen between
two atoms then makes a range. A class is listed member by member, each member at its first position. -/

namespace GrammarCompletion.Terminal

def unquote (literal : String) : Except Defect String :=
  match literal.toList with
  | [] => .error .missingOpeningQuote
  | quote :: cs =>
    if ¬ (quote = '"' ∨ quote = '\'') then .error .missingOpeningQuote
    else if cs.getLast? ≠ some quote then .error .missingClosingQuote
    else do
      let body ← atoms (some quote) cs.dropLast
      return String.ofList (body.map Atom.char)

inductive Segment where
  | single (c : Char)
  | range (low high : Char)
  deriving DecidableEq, Repr

def segments : List Atom → List Segment
  | [] => []
  | [a] => [.single a.char]
  | [a, b] => [.single a.char, .single b.char]
  | a :: b :: c :: rest =>
    if b = ⟨'-', false⟩ then .range a.char c.char :: segments rest
    else .single a.char :: segments (b :: c :: rest)
termination_by atoms => atoms.length

/-- The characters from `low` to `high`, both included; surrogates are no characters. -/
def charsBetween (low high : Char) : List Char :=
  (List.range' low.toNat (high.toNat + 1 - low.toNat)).filterMap Text.scalar?

def addMember (members : List Char) (c : Char) : List Char :=
  if c ∈ members then members else members ++ [c]

/-- Adds the members of one segment. A range is refused by its width before it is listed. -/
def addSegment (members : List Char) : Segment → Except Obstacle (List Char)
  | .single c => .ok (addMember members c)
  | .range low high =>
    if high < low then .error (.malformed (.reversedRange low high))
    else if classLimit < members.length + (high.toNat - low.toNat + 1) then
      .error (.notEnumerable .tooManyMembers)
    else .ok ((charsBetween low high).foldl addMember members)

def classBody? (text : List Char) : Option (List Char) :=
  match text with
  | '[' :: cs => if cs.getLast? = some ']' then some cs.dropLast else none
  | _ => none

def classMembers (text : String) : Except Obstacle (List Char) :=
  match classBody? text.toList with
  | none => .error (.malformed .unterminatedClass)
  | some body =>
    if body.head? = some '^' then .error (.notEnumerable .negatedClass)
    else match atoms none body with
      | .error defect => .error (.malformed defect)
      | .ok body => do
        let members ← (segments body).foldlM addSegment []
        if members = [] then throw (.malformed .emptyClass)
        else if classLimit < members.length then throw (.notEnumerable .tooManyMembers)
        else return members

def spellings (symbol : Symbol) : SymbolSort → Except Obstacle (List String)
  | .literal => match unquote symbol with
    | .ok text => .ok [text]
    | .error defect => .error (.malformed defect)
  | .charClass => (classMembers symbol).map (·.map Char.toString)
  | .pattern => .error (.notEnumerable .pattern)
  | .token => .error (.notEnumerable .token)
  | .nonterminal => .error (.malformed .notTerminal)

end GrammarCompletion.Terminal
