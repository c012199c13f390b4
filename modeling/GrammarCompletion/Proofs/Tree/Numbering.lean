import GrammarCompletion.Tree.Arena

/-! The numbers that the nodes of a tree get. A tree takes consecutive numbers, its root the first of
them, so what it adds to the arena can be told from the number of its root. On the way the arena is
half-filled: the trees that wait have their numbers already, and the lists of children lack those of
the trees that wait. Storing a tree changes nothing in what the arena holds in the end. -/

namespace GrammarCompletion

def Node.isReversed (n : Node) : Bool := n.span.stop < n.span.start

namespace Tree

def idsFrom (id : Nat) : List Tree → List Nat
  | [] => []
  | t :: ts => id :: idsFrom (id + t.size) ts

mutual

/-- The nodes of the tree in pre-order, where the root has the number `id`. -/
def flatten (parent : Option Nat) (id : Nat) : Tree → List Node
  | node kind text span children =>
    ⟨kind, text, span, idsFrom (id + 1) children, parent⟩ :: flattenAll id (id + 1) children

def flattenAll (parent id : Nat) : List Tree → List Node
  | [] => []
  | t :: ts => flatten (some parent) id t ++ flattenAll parent (id + t.size) ts

end

theorem flatten_eq (parent : Option Nat) (id : Nat) (t : Tree) : t.flatten parent id =
    ⟨t.kind, t.text, t.span, idsFrom (id + 1) t.children, parent⟩ ::
      flattenAll id (id + 1) t.children := by
  cases t
  rfl

end Tree

namespace Arena.Build

section Waiting

def nodesFrom : Nat → List (Tree × Option Nat) → List Node
  | _, [] => []
  | id, (t, parent) :: rest => t.flatten parent id ++ nodesFrom (id + t.size) rest

/-- The numbers of those among the trees that wait whose parent is `p`. -/
def childrenFrom (p : Nat) : Nat → List (Tree × Option Nat) → List Nat
  | _, [] => []
  | id, (t, parent) :: rest =>
    (if parent = some p then [id] else []) ++ childrenFrom p (id + t.size) rest

variable (id : Nat) (ts : List Tree) (rest : List (Tree × Option Nat))

theorem nodesFrom_siblings (p : Nat) : nodesFrom id (ts.map (·, some p) ++ rest) =
    Tree.flattenAll p id ts ++ nodesFrom (id + Tree.sizeAll ts) rest := by
  induction ts generalizing id with
  | nil => rfl
  | cons t ts ih =>
    rw [List.map_cons, List.cons_append, nodesFrom, ih, Tree.flattenAll, Tree.sizeAll,
      List.append_assoc, Nat.add_assoc]

theorem nodesFrom_cons (t : Tree) (parent : Option Nat) : nodesFrom id ((t, parent) :: rest) =
    ⟨t.kind, t.text, t.span, Tree.idsFrom (id + 1) t.children, parent⟩ ::
      nodesFrom (id + 1) (t.children.map (·, some id) ++ rest) := by
  rw [nodesFrom_siblings, nodesFrom, t.flatten_eq, t.size_eq, List.cons_append, Nat.add_assoc]

theorem childrenFrom_siblings (p : Nat) : childrenFrom p id (ts.map (·, some p) ++ rest) =
    Tree.idsFrom id ts ++ childrenFrom p (id + Tree.sizeAll ts) rest := by
  induction ts generalizing id with
  | nil => rfl
  | cons t ts ih =>
    rw [List.map_cons, List.cons_append, childrenFrom, if_pos rfl, ih, Tree.idsFrom, Tree.sizeAll,
      Nat.add_assoc]
    rfl

theorem childrenFrom_others {p q : Nat} (h : q ≠ p) :
    childrenFrom p id (ts.map (·, some q) ++ rest) =
      childrenFrom p (id + Tree.sizeAll ts) rest := by
  induction ts generalizing id with
  | nil => rfl
  | cons t ts ih =>
    rw [List.map_cons, List.cons_append, childrenFrom, if_neg fun heq => h (Option.some.inj heq), ih,
      Tree.sizeAll, Nat.add_assoc]
    rfl

variable {rest}

theorem childrenFrom_eq_nil {p : Nat} (h : ∀ waiting ∈ rest, waiting.2 ≠ some p) :
    childrenFrom p id rest = [] := by
  induction rest generalizing id with
  | nil => rfl
  | cons waiting rest ih =>
    obtain ⟨hfirst, hrest⟩ := List.forall_mem_cons.1 h
    rw [childrenFrom, if_neg hfirst, ih _ hrest]
    rfl

end Waiting

section Steps

/-- The parent of every tree that waits is stored. -/
def ParentsStored (b : Build) : Prop :=
  ∀ waiting ∈ b.pending, ∀ p, waiting.2 = some p → p < b.nodes.size

/-- A stored node as it will be, with the children that still wait. -/
def complete (b : Build) (id : Nat) (n : Node) : Node :=
  { n with children := n.children ++ childrenFrom id b.nodes.size b.pending }

/-- What the arena will hold: the stored nodes as they will be, and behind them those that wait. -/
def outcome (b : Build) : List Node :=
  b.nodes.toList.mapIdx b.complete ++ nodesFrom b.nodes.size b.pending

def adopt (parent : Option Nat) (child id : Nat) (n : Node) : Node :=
  { n with children := n.children ++ if parent = some id then [child] else [] }

theorem adopt_of_ne {parent : Option Nat} {id : Nat} (h : parent ≠ some id) (child : Nat) (n : Node) :
    adopt parent child id n = n := by
  simp only [adopt, if_neg h, List.append_nil]

theorem toList_link (parent : Option Nat) (child : Nat) (nodes : Array Node) :
    (link parent child nodes).toList = nodes.toList.mapIdx (adopt parent child) := by
  apply List.ext_getElem?
  intro i
  rw [Array.getElem?_toList, List.getElem?_mapIdx, Array.getElem?_toList]
  cases parent with
  | none =>
    have hnone : adopt none child i = id := funext (adopt_of_ne (by simp) child)
    rw [hnone, Option.map_id]
    rfl
  | some p =>
    rw [link, Array.getElem?_modify]
    by_cases hp : p = i
    · rw [if_pos hp, hp]
      exact congrArg (Option.map · nodes[i]?) (funext fun n => by rw [adopt, if_pos rfl])
    · have hother : adopt (some p) child i = id := funext (adopt_of_ne (by simpa using hp) child)
      rw [if_neg hp, hother, Option.map_id]
      rfl

variable {nodes : Array Node} {t : Tree} {parent : Option Nat} {rest : List (Tree × Option Nat)}

theorem complete_adopt {id : Nat} (hid : id < nodes.size) (n : Node) :
    (store ⟨nodes, rest⟩ t parent).complete id (adopt parent nodes.size id n) =
      (⟨nodes, (t, parent) :: rest⟩ : Build).complete id n := by
  have hchildren := childrenFrom_others (nodes.size + 1) t.children rest (Nat.ne_of_gt hid)
  simp only [complete, size_store, pending_store, hchildren, childrenFrom, adopt, t.size_eq,
    List.append_assoc, Nat.add_assoc]

theorem complete_stored (h : (⟨nodes, (t, parent) :: rest⟩ : Build).ParentsStored) :
    (store ⟨nodes, rest⟩ t parent).complete nodes.size
        (adopt parent nodes.size nodes.size ⟨t.kind, t.text, t.span, [], parent⟩) =
      ⟨t.kind, t.text, t.span, Tree.idsFrom (nodes.size + 1) t.children, parent⟩ := by
  obtain ⟨hparent, hrest⟩ := List.forall_mem_cons.1 h
  have hself : parent ≠ some nodes.size := fun heq => Nat.lt_irrefl _ (hparent _ heq)
  have hothers : ∀ waiting ∈ rest, waiting.2 ≠ some nodes.size :=
    fun waiting hwaiting heq => Nat.lt_irrefl _ (hrest waiting hwaiting _ heq)
  simp only [complete, size_store, pending_store, childrenFrom_siblings,
    childrenFrom_eq_nil _ hothers, adopt, if_neg hself, List.nil_append, List.append_nil]

/-- Storing a tree keeps what the arena will hold. -/
theorem outcome_store (h : (⟨nodes, (t, parent) :: rest⟩ : Build).ParentsStored) :
    (store ⟨nodes, rest⟩ t parent).outcome = (⟨nodes, (t, parent) :: rest⟩ : Build).outcome := by
  have hstored : (store ⟨nodes, rest⟩ t parent).nodes.toList.mapIdx
      (store ⟨nodes, rest⟩ t parent).complete =
        nodes.toList.mapIdx (⟨nodes, (t, parent) :: rest⟩ : Build).complete ++
          [⟨t.kind, t.text, t.span, Tree.idsFrom (nodes.size + 1) t.children, parent⟩] := by
    rw [store, toList_link, Array.toList_push, List.mapIdx_mapIdx, List.mapIdx_concat,
      ← complete_stored h]
    congr 1
    -- A node that was stored before gets the new number now or waits for it: the same in the end.
    rw [List.mapIdx_eq_mapIdx_iff]
    intro id hid
    exact complete_adopt hid _
  rw [outcome, hstored, outcome, size_store, pending_store, nodesFrom_cons, List.append_assoc]
  rfl

theorem ParentsStored.store (h : (⟨nodes, (t, parent) :: rest⟩ : Build).ParentsStored) :
    (store ⟨nodes, rest⟩ t parent).ParentsStored := by
  intro waiting hwaiting p hp
  rw [size_store]
  rw [pending_store, List.mem_append] at hwaiting
  rcases hwaiting with hchild | hwaiting
  · obtain ⟨child, _, rfl⟩ := List.mem_map.1 hchild
    exact Nat.lt_succ_of_le (Nat.le_of_eq (Option.some.inj hp).symm)
  · exact Nat.lt_succ_of_lt (h waiting (List.mem_cons_of_mem _ hwaiting) p hp)

theorem outcome_nil (nodes : Array Node) : (⟨nodes, []⟩ : Build).outcome = nodes.toList := by
  have hcomplete : (⟨nodes, []⟩ : Build).complete = fun _ n => n := by
    funext id n
    simp only [complete, childrenFrom, List.append_nil]
  rw [outcome, hcomplete, nodesFrom, List.append_nil]
  exact List.ext_getElem List.length_mapIdx fun _ _ _ => List.getElem_mapIdx

/-- The pass ends at the first reversed span among the nodes that wait, else with what the arena was to
hold. -/
theorem run_eq (b : Build) (h : b.ParentsStored) : b.run =
    match (nodesFrom b.nodes.size b.pending).find? Node.isReversed with
    | some n => .error (.reversedSpan n.kind n.span.start n.span.stop)
    | none => .ok b.outcome.toArray := by
  -- The tree on top of the stack gives the first of the nodes that wait.
  fun_induction run b with
  | case1 nodes => rw [outcome_nil, nodesFrom, List.find?_nil]
  | case2 nodes t parent rest hreversed =>
    rw [nodesFrom_cons, List.find?_cons_of_pos]
    exact decide_eq_true hreversed
  | case3 nodes t parent rest hreversed ih =>
    rw [ih h.store, outcome_store h, size_store, pending_store, nodesFrom_cons,
      List.find?_cons_of_neg]
    exact fun hhead => hreversed (of_decide_eq_true hhead)

theorem run_start (t : Tree) : (start t).run =
    match (t.flatten none 0).find? Node.isReversed with
    | some n => .error (.reversedSpan n.kind n.span.start n.span.stop)
    | none => .ok (t.flatten none 0).toArray := by
  have hstored : (start t).ParentsStored := by
    intro waiting hwaiting p hp
    rw [List.mem_singleton.1 hwaiting] at hp
    exact absurd hp.symm (Option.some_ne_none p)
  have hnodes : nodesFrom 0 (start t).pending = t.flatten none 0 := List.append_nil _
  have houtcome : (start t).outcome = nodesFrom 0 (start t).pending := rfl
  rw [run_eq (start t) hstored, houtcome]
  exact hnodes ▸ rfl

end Steps

end Arena.Build

namespace Arena

/-- The loop gives the nodes in pre-order, unless one of them has a reversed span: the first such node
is the fault. -/
theorem map_nodes_ofTree (t : Tree) : (ofTree t).map nodes =
    match (t.flatten none 0).find? Node.isReversed with
    | some n => .error (.reversedSpan n.kind n.span.start n.span.stop)
    | none => .ok (t.flatten none 0).toArray := by
  rw [← Build.run_start]
  unfold ofTree
  split
  · rename_i fault hfault
    exact hfault.symm
  · rename_i nodes hnodes
    exact hnodes.symm

variable {t : Tree} {a : Arena}

theorem ofTree_eq_error_iff_find? {fault : Tree.Fault} : ofTree t = .error fault ↔
    ∃ n, (t.flatten none 0).find? Node.isReversed = some n ∧
      fault = .reversedSpan n.kind n.span.start n.span.stop := by
  have hnodes := map_nodes_ofTree t
  cases hfind : (t.flatten none 0).find? Node.isReversed with
  | none =>
    rw [hfind] at hnodes
    cases hresult : ofTree t with
    | error => simp [hresult, Except.map] at hnodes
    | ok a => simp
  | some n =>
    rw [hfind] at hnodes
    cases hresult : ofTree t with
    | error found =>
      rw [hresult] at hnodes
      obtain rfl := Except.error.inj hnodes
      simp [eq_comm]
    | ok a => simp [hresult, Except.map] at hnodes

theorem ofTree_eq_ok_iff : ofTree t = .ok a ↔
    (t.flatten none 0).find? Node.isReversed = none ∧ a.nodes.toList = t.flatten none 0 := by
  have hnodes := map_nodes_ofTree t
  cases hfind : (t.flatten none 0).find? Node.isReversed with
  | some n =>
    rw [ofTree_eq_error_iff_find?.2 ⟨n, hfind, rfl⟩]
    simp
  | none =>
    rw [hfind] at hnodes
    cases hresult : ofTree t with
    | error => simp [hresult, Except.map] at hnodes
    | ok found =>
      rw [hresult] at hnodes
      have hfound : found.nodes = (t.flatten none 0).toArray := Except.ok.inj hnodes
      constructor
      · intro h
        rw [← Except.ok.inj h, hfound]
        exact ⟨rfl, rfl⟩
      · rintro ⟨_, hlist⟩
        rw [← hlist] at hfound
        exact congrArg Except.ok (Arena.ext hfound)

theorem nodes_ofTree (h : ofTree t = .ok a) : a.nodes.toList = t.flatten none 0 :=
  (ofTree_eq_ok_iff.1 h).2

theorem isReversed_of_mem_flatten (h : ofTree t = .ok a) {n : Node} (hn : n ∈ t.flatten none 0) :
    n.isReversed = false :=
  Bool.eq_false_iff.2 (List.find?_eq_none.1 (ofTree_eq_ok_iff.1 h).1 n hn)

end Arena

end GrammarCompletion
