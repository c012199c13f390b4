/-! Rules as flat tables hold them, and how their symbols are meant. Each alternative is a plain
sequence of symbols. A terminal shows its sort by its spelling alone: quotes, brackets, slashes, or a
name in capitals that an external lexer defines. -/

namespace GrammarCompletion

/-- A rule name, or a terminal in the form in which grammars spell it. -/
abbrev Symbol := String

abbrev Alternative := List Symbol

structure Rule where
  name : String
  alternatives : List Alternative
  deriving DecidableEq, Repr

def Rule.symbols (rule : Rule) : List Symbol := rule.alternatives.flatten

inductive SymbolSort where
  | nonterminal
  | literal
  | charClass
  | pattern
  | token
  deriving DecidableEq, Repr

def SymbolSort.isTerminal : SymbolSort → Bool
  | .nonterminal => false
  | _ => true

/-- A capital letter, then capitals, digits and underscores. Only ASCII counts. -/
def isTokenName : List Char → Bool
  | [] => false
  | c :: cs => c.isUpper && cs.all fun d => d.isUpper || d.isDigit || d == '_'

def terminalSort? (symbol : Symbol) : Option SymbolSort :=
  match symbol.toList with
  | [] => none
  | c :: cs =>
    if c = '"' ∨ c = '\'' then some .literal
    else if c = '[' then some .charClass
    else if c = '/' then some .pattern
    else if isTokenName (c :: cs) then some .token
    else none

theorem isTerminal_of_terminalSort? {symbol : Symbol} {sort : SymbolSort}
    (h : terminalSort? symbol = some sort) : sort.isTerminal = true := by
  cases sort with
  | nonterminal =>
    unfold terminalSort? at h
    repeat' split at h
    all_goals simp at h
  | literal | charClass | pattern | token => rfl

end GrammarCompletion
