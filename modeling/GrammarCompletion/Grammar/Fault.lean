import GrammarCompletion.Ebnf.Attempt
import GrammarCompletion.Json.Fault

/-! Why a grammar is refused. -/

namespace GrammarCompletion.Grammar

inductive Fault where
  | unknownReference (rule symbol : String)
  | duplicateRule (name : String)
  | noRules
  | badText (source : String) (fault : Ebnf.Fault)
  | table (fault : Json.Fault)
  deriving DecidableEq, Repr

namespace Fault

def message : Fault → String
  | unknownReference rule symbol =>
    "rule '" ++ rule ++ "' references unknown symbol '" ++ symbol ++ "'"
  | duplicateRule name => "rule '" ++ name ++ "' is defined more than once"
  | noRules => "grammar defines no rules"
  | badText _ fault => "grammar syntax error: " ++ fault.message
  | table fault => "invalid rule table: " ++ fault.message

def code : Fault → String
  | unknownReference _ _ => "bnf_complete::unknown_rule"
  | duplicateRule _ => "bnf_complete::duplicate_rule"
  | noRules => "bnf_complete::empty_grammar"
  | badText _ _ => "bnf_complete::grammar_syntax"
  | table _ => "bnf_complete::rule_table"

def help? : Fault → Option String
  | unknownReference _ symbol =>
    some ("define a rule named '" ++ symbol ++
      "', or spell the terminal as a quoted literal, a [class], a /pattern/ or an UPPER_CASE token")
  | table _ => some "a rule table is a JSON object mapping rule names to lists of alternatives"
  | _ => none

end Fault

end GrammarCompletion.Grammar
