import GrammarCompletion.Completion.Suggestion
import GrammarCompletion.Grammar.Source
import GrammarCompletion.Text.Quoted

/-! The results of the commands as text for readers and as JSON for tools. -/

namespace GrammarCompletion.CommandLine

def line (text : String) : String := text ++ "\n"

def writeJson (v : Json.Value) : String := line v.write

def alternativeText (alternative : Alternative) : String :=
  if alternative = [] then "ε" else " ".intercalate alternative

def rulesText (g : Grammar) : String :=
  String.join (g.rules.map fun r =>
    line (r.name ++ " ::= " ++ " | ".intercalate (r.alternatives.map alternativeText)))

def parentsText (g : LinkedGrammar) : String :=
  String.join (g.parents.map fun (symbol, parents) =>
    line (symbol ++ " <- " ++ ", ".intercalate parents))

def parentsJson (g : LinkedGrammar) : Json.Value :=
  .object (g.parents.map fun (symbol, parents) => (symbol, .strings parents))

def expansionText (symbol : Symbol) (e : Expansion) : String :=
  line symbol ++
  String.join (e.literals.map fun text => line ("  " ++ Text.quoted text)) ++
  String.join (e.unlisted.map fun u => line ("  <" ++ u.symbol ++ "> (" ++ u.message ++ ")"))

def unlistedJson (u : Unlisted) : Json.Value :=
  let kind := match u.obstacle with
    | .malformed _ => "malformed"
    | .notEnumerable _ => "non_enumerable"
  .object [("symbol", .string u.symbol), ("reason", .object [("kind", .string kind),
    ("literal", .string u.symbol), ("reason", .string u.obstacle.reason)])]

def expansionMembers (e : Expansion) : List (String × Json.Value) :=
  [("literals", .strings e.literals), ("opaque", .array (e.unlisted.map unlistedJson))]

def suggestionsText (suggestions : List Suggestion) : String :=
  if suggestions = [] then line "no suggestions"
  else String.join (suggestions.map fun s => expansionText s.symbol s.expansion)

def suggestionsJson (suggestions : List Suggestion) : Json.Value :=
  .array (suggestions.map fun s =>
    .object (("symbol", .string s.symbol) :: expansionMembers s.expansion))

end GrammarCompletion.CommandLine
