import GrammarCompletion.Completion.Closing
import GrammarCompletion.Completion.Continuation
import GrammarCompletion.Completion.Expansion

/-! Completion at a cursor: the symbols that may follow the nodes that close there, each with its
expansion. -/

namespace GrammarCompletion

structure Suggestion where
  symbol : Symbol
  expansion : Expansion
  deriving DecidableEq, Repr

structure Completer where
  grammar : LinkedGrammar
  choice : LeafChoice := .all

namespace Completer

variable (c : Completer) (a : Arena) (cursor : Nat)

def context : Except Completion.Fault (List Nat) := a.closingNodes cursor c.choice

def next : Except Completion.Fault (List Symbol) :=
  (c.context a cursor).map (c.grammar.candidates a)

def suggest : Except Completion.Fault (List Suggestion) := do
  (← c.next a cursor).mapM fun symbol => (c.grammar.expand symbol).map (⟨symbol, ·⟩)

end Completer

end GrammarCompletion
