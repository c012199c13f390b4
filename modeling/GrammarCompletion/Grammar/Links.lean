import GrammarCompletion.Grammar.Basic

/-! Grammars whose symbols all have a meaning, with links from each symbol back to the rules that
mention it. A rule is not linked from its own name. Symbols stand in the order in which they are
first mentioned, and the rules of a symbol in the order of the table. -/

namespace GrammarCompletion

abbrev ParentTable := List (Symbol × List String)

namespace ParentTable

def parentsOf (table : ParentTable) (symbol : Symbol) : List String :=
  (table.lookup symbol).getD []

def insert (symbol : Symbol) (parent : String) : ParentTable → ParentTable
  | [] => [(symbol, [parent])]
  | (s, parents) :: rest =>
    if s = symbol then (s, if parent ∈ parents then parents else parents ++ [parent]) :: rest
    else (s, parents) :: insert symbol parent rest

end ParentTable

structure LinkedGrammar where
  grammar : Grammar
  parents : ParentTable

namespace Grammar

variable (g : Grammar)

def mentions : List (String × Symbol) := g.rules.flatMap fun r => r.symbols.map (r.name, ·)

def addMention (table : ParentTable) : String × Symbol → Except Fault ParentTable
  | (rule, symbol) =>
    if (g.sortOf? symbol).isNone then .error (.unknownReference rule symbol)
    else if symbol = rule then .ok table
    else .ok (table.insert symbol rule)

/-- Links the grammar. The first mention of a symbol without a meaning is the fault. -/
def link : Except Fault LinkedGrammar :=
  (g.mentions.foldlM g.addMention []).map (⟨g, ·⟩)

end Grammar

namespace LinkedGrammar

variable (g : LinkedGrammar)

def parentsOf (symbol : Symbol) : List String := g.parents.parentsOf symbol

def roots : List String := g.grammar.names.filter fun name => (g.parentsOf name).isEmpty

end LinkedGrammar

end GrammarCompletion
