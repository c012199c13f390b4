import GrammarCompletion.Json.Fault
import GrammarCompletion.Text.Basic

/-! Parse trees as an outer parser hands them over: nested nodes with a kind, the text they cover
and their span. The kind is a rule name, or for a leaf the terminal as the grammar spells it. -/

namespace GrammarCompletion

inductive Tree where
  | node (kind text : String) (span : Span) (children : List Tree)

namespace Tree

def kind : Tree → String
  | node kind _ _ _ => kind

def text : Tree → String
  | node _ text _ _ => text

def span : Tree → Span
  | node _ _ span _ => span

def children : Tree → List Tree
  | node _ _ _ children => children

def leaf (kind text : String) (start stop : Nat) : Tree := node kind text ⟨start, stop⟩ []

/-- A node from the start of its first child to the end of its last one, with their texts. -/
def branch (kind : String) (children : List Tree) : Tree :=
  let start := (children.head?.map (·.span.start)).getD 0
  let stop := (children.getLast?.map (·.span.stop)).getD start
  node kind (String.join (children.map text)) ⟨start, stop⟩ children

mutual

def size : Tree → Nat
  | node _ _ _ children => 1 + sizeAll children

def sizeAll : List Tree → Nat
  | [] => 0
  | t :: ts => t.size + sizeAll ts

end

inductive Fault where
  | unreadable (fault : Json.Fault)
  | reversedSpan (kind : String) (start stop : Nat)
  deriving DecidableEq, Repr

namespace Fault

def message : Fault → String
  | unreadable fault => "malformed syntax tree: " ++ fault.message
  | reversedSpan kind start stop =>
    "malformed syntax tree: node '" ++ kind ++ "' starts at " ++ toString start ++
      " after its end " ++ toString stop

def code : Fault → String
  | _ => "bnf_complete::malformed_tree"

end Fault

end Tree

end GrammarCompletion
