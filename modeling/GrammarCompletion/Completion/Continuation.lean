import GrammarCompletion.Grammar.Links
import GrammarCompletion.Tree.Arena

/-! What may follow a node. The parent of a node has taken some alternative, of which its children
show the beginning; only alternatives that agree with them can say what comes next. -/

namespace GrammarCompletion

structure Placement where
  rule : String
  alternative : Alternative
  position : Nat
  deriving DecidableEq, Repr

def Placement.next? (p : Placement) : Option Symbol := p.alternative[p.position + 1]?

namespace LinkedGrammar

variable (g : LinkedGrammar) (a : Arena)

/-- Whether the node `id` may stand at `position` of the alternative: no other sibling stands
there, and the siblings up to there are of the kinds that the alternative asks for. -/
def agrees (siblings : List Nat) (id : Nat) (alternative : Alternative) (position : Nat) : Bool :=
  siblings[position]?.all (· = id) &&
    (alternative.zip (siblings.take (position + 1))).all fun (symbol, sibling) =>
      a.kind? sibling = some symbol

/-- The places that agree with the siblings, in the alternatives of the rules that mention the
kind of the node. An alternative of a single symbol has nothing to follow and is left out, and
the root has no place. -/
def placements (id : Nat) : List Placement :=
  match a.node? id with
  | none => []
  | some n => match n.parent with
    | none => []
    | some p =>
      (g.parentsOf n.kind).flatMap fun rule =>
        ((g.grammar.alternatives? rule).getD []).flatMap fun alternative =>
          if alternative.length = 1 then []
          else ((List.range alternative.length).filter fun i =>
            alternative[i]? = some n.kind && agrees a (a.childrenOf p) id alternative i).map
              fun i => ⟨rule, alternative, i⟩

def nextSymbols (id : Nat) : List Symbol :=
  ((g.placements a id).filterMap Placement.next?).eraseDups

def candidates (ids : List Nat) : List Symbol := (ids.flatMap (g.nextSymbols a)).eraseDups

end LinkedGrammar

end GrammarCompletion
