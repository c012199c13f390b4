import GrammarCompletion.Completion.Fault
import GrammarCompletion.Tree.Arena

/-! The nodes that close at a cursor. Each chosen leaf that ends there gives itself and its
ancestors for as long as they end there too; a node met twice keeps its first place. -/

namespace GrammarCompletion

/-- Which leaves count where several end at the cursor, as empty leaves and overlaps may. -/
inductive LeafChoice where
  | all
  | rightmost
  | first
  deriving DecidableEq, Repr

namespace Arena

variable (a : Arena) (cursor : Nat)

def startOf (id : Nat) : Nat := ((a.node? id).map (·.span.start)).getD 0

def endsAt (id : Nat) : Bool := (a.node? id).any (·.span.stop = cursor)

def closingLeaves : List Nat :=
  (List.range a.size).filter fun id => (a.node? id).any Node.isLeaf && a.endsAt cursor id

/-- The same leaves by descending start; pre-order decides between equal starts. -/
def leavesByStart : List Nat :=
  (a.closingLeaves cursor).mergeSort fun x y => a.startOf y ≤ a.startOf x

def chosenLeaves : LeafChoice → List Nat
  | .all => a.leavesByStart cursor
  | .rightmost => (a.leavesByStart cursor).take 1
  | .first => (a.closingLeaves cursor).take 1

def closingChain (leaf : Nat) : List Nat :=
  leaf :: (a.ancestors leaf).takeWhile (a.endsAt cursor)

def closingNodes (choice : LeafChoice) : Except Completion.Fault (List Nat) :=
  if a.extent < cursor then .error (.cursorOutOfRange cursor a.extent)
  else if a.closingLeaves cursor = [] then .error (.noLeafAtCursor cursor)
  else .ok ((a.chosenLeaves cursor choice).flatMap (a.closingChain cursor)).eraseDups

end Arena

end GrammarCompletion
