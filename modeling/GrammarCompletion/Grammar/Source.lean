import GrammarCompletion.Ebnf.Lowering
import GrammarCompletion.Ebnf.Reader
import GrammarCompletion.Grammar.Basic
import GrammarCompletion.Json.Reader
import GrammarCompletion.Json.Value

/-! Grammars from grammar text and from JSON rule tables. A table is an object that maps each rule name
to its alternatives; a name that is given again keeps its first place and takes the later
alternatives. -/

namespace GrammarCompletion.Grammar

def inlineSource : String := "<inline>"

/-- The grammar of a text; `source` is the name under which faults report it. -/
def ofText (source text : String) : Except Fault Grammar :=
  match Ebnf.parse text with
  | .error fault => .error (.badText source fault)
  | .ok document => ofRules document.lower

def setRule (rule : Rule) : List Rule → List Rule
  | [] => [rule]
  | r :: rest => if r.name = rule.name then rule :: rest else r :: setRule rule rest

def readTable : Json.Reader (List (String × List Alternative)) :=
  Json.Reader.map (Json.Reader.sequence (Json.Reader.sequence Json.Reader.string))

def ofTable (text : String) : Except Fault Grammar :=
  match Json.Reader.all readTable text with
  | .error fault => .error (.table fault)
  | .ok pairs =>
    ofRules (pairs.foldl (fun rules (name, alternatives) => setRule ⟨name, alternatives⟩ rules) [])

def toJson (g : Grammar) : Json.Value :=
  .object (g.rules.map fun r => (r.name, .array (r.alternatives.map Json.Value.strings)))

end GrammarCompletion.Grammar
