import GrammarCompletion.Tree.Basic

/-! Parse trees with their nodes numbered in pre-order, each linked to its children and its
parent. The root has the number zero. The nodes are stored in one pass over a stack of the trees that
wait: a node is stored without children, and each child enters itself when its own turn comes. -/

namespace GrammarCompletion

structure Node where
  kind : String
  text : String
  span : Span
  children : List Nat
  parent : Option Nat
  deriving DecidableEq, Repr

def Node.isLeaf (n : Node) : Bool := n.children.isEmpty

namespace Tree

theorem size_eq (t : Tree) : t.size = 1 + sizeAll t.children := by
  cases t
  rfl

theorem sizeAll_append (ts us : List Tree) : sizeAll (ts ++ us) = sizeAll ts + sizeAll us := by
  induction ts with
  | nil => rw [List.nil_append, sizeAll, Nat.zero_add]
  | cons t ts ih => rw [List.cons_append, sizeAll, sizeAll, ih, Nat.add_assoc]

end Tree

@[ext] structure Arena where
  nodes : Array Node
  nonempty : 0 < nodes.size

namespace Arena

/-- An arena on the way: the nodes stored so far, and the stack of the trees that wait with the number
of their parent, the top one first. -/
structure Build where
  nodes : Array Node
  pending : List (Tree × Option Nat)

namespace Build

def start (t : Tree) : Build := ⟨#[], [(t, none)]⟩

def link (parent : Option Nat) (child : Nat) (nodes : Array Node) : Array Node :=
  match parent with
  | none => nodes
  | some p => nodes.modify p fun n => { n with children := n.children ++ [child] }

/-- Stores a tree that was on top of the stack. Its children are put onto the stack from the last to
the first, so that they are visited, and numbered, from the first to the last. -/
def store (b : Build) (t : Tree) (parent : Option Nat) : Build where
  nodes := link parent b.nodes.size (b.nodes.push ⟨t.kind, t.text, t.span, [], parent⟩)
  pending := t.children.reverse.foldl (fun stack child => (child, some b.nodes.size) :: stack)
    b.pending

theorem size_link (parent : Option Nat) (child : Nat) (nodes : Array Node) :
    (link parent child nodes).size = nodes.size := by
  cases parent with
  | none => rfl
  | some p => exact Array.size_modify

theorem size_store (b : Build) (t : Tree) (parent : Option Nat) :
    (b.store t parent).nodes.size = b.nodes.size + 1 := by
  rw [store, size_link, Array.size_push]

theorem pending_store (b : Build) (t : Tree) (parent : Option Nat) :
    (b.store t parent).pending = t.children.map (·, some b.nodes.size) ++ b.pending := by
  rw [store, List.foldl_reverse, List.foldr_cons_eq_append]

def remaining (b : Build) : Nat := Tree.sizeAll (b.pending.map Prod.fst)

theorem remaining_store (b : Build) (t : Tree) (parent : Option Nat) :
    (b.store t parent).remaining + 1 = t.size + b.remaining := by
  have hchildren : (t.children.map (·, some b.nodes.size)).map Prod.fst = t.children := by
    rw [List.map_map]
    exact List.map_id _
  rw [remaining, pending_store, List.map_append, Tree.sizeAll_append, hchildren, t.size_eq, remaining]
  omega

/-- Stores the trees that wait. The first one with a reversed span is the fault. -/
def run : Build → Except Tree.Fault (Array Node)
  | ⟨nodes, []⟩ => .ok nodes
  | ⟨nodes, (t, parent) :: rest⟩ =>
    if t.span.stop < t.span.start then .error (.reversedSpan t.kind t.span.start t.span.stop)
    else run (store ⟨nodes, rest⟩ t parent)
termination_by b => b.remaining
decreasing_by
  have hremaining := remaining_store ⟨nodes, rest⟩ t parent
  simp only [remaining, List.map_cons, Tree.sizeAll] at hremaining ⊢
  omega

theorem size_le_of_run {b : Build} {nodes : Array Node} (h : b.run = .ok nodes) :
    b.nodes.size ≤ nodes.size := by
  fun_induction run b with
  | case1 =>
    obtain rfl := Except.ok.inj h
    exact Nat.le_refl _
  | case2 => simp at h
  | case3 stored t parent rest _ ih =>
    have hstored := ih h
    rw [size_store] at hstored
    exact Nat.le_of_succ_le hstored

theorem size_pos_of_run {t : Tree} {nodes : Array Node} (h : (start t).run = .ok nodes) :
    0 < nodes.size := by
  rw [start, run] at h
  split at h
  · simp at h
  · have hstored := size_le_of_run h
    rw [size_store] at hstored
    exact Nat.lt_of_lt_of_le (Nat.succ_pos _) hstored

end Build

def ofTree (t : Tree) : Except Tree.Fault Arena :=
  match h : (Build.start t).run with
  | .error fault => .error fault
  | .ok nodes => .ok ⟨nodes, Build.size_pos_of_run h⟩

variable (a : Arena)

def size : Nat := a.nodes.size

def node? (id : Nat) : Option Node := a.nodes[id]?

def extent : Nat :=
  have := a.nonempty
  a.nodes[0].span.stop

def kind? (id : Nat) : Option String := (a.node? id).map Node.kind

def parent? (id : Nat) : Option Nat := (a.node? id).bind Node.parent

def childrenOf (id : Nat) : List Nat := ((a.node? id).map Node.children).getD []

def ancestors (id : Nat) : List Nat :=
  match a.parent? id with
  | none => []
  | some p => if p < id then p :: ancestors p else []
termination_by id

def siblingIndex? (id : Nat) : Option Nat :=
  (a.parent? id).bind fun p => (a.childrenOf p).idxOf? id

end Arena

end GrammarCompletion
