import GrammarCompletion.Proofs.Completion.Choices

/-! Trees built from leaves and branches alone. A branch ends with its last child, so a node that ends
at the cursor has a way down to a leaf, through last children, on which all nodes end there. Hence
every node that ends at the cursor closes there, wherever the spans of its other children lie. -/

namespace GrammarCompletion

namespace Tree

inductive Assembled : Tree → Prop where
  | leaf (kind text : String) (start stop : Nat) : Assembled (leaf kind text start stop)
  | branch (kind : String) {children : List Tree} (h : ∀ c ∈ children, Assembled c) :
      Assembled (branch kind children)

theorem Assembled.child {t : Tree} (h : t.Assembled) : ∀ c ∈ t.children, c.Assembled := by
  cases h with
  | leaf kind text start stop =>
    intro c hc
    cases hc
  | branch kind h => exact h

theorem AllShownAt.exists_of_mem {a : Arena} {p id : Nat} {s : Tree} {ts : List Tree}
    (h : AllShownAt a p id ts) (hs : s ∈ ts) : ∃ c, s.ShownAt a (some p) c := by
  induction ts generalizing id with
  | nil => cases hs
  | cons t ts ih =>
    rcases List.mem_cons.1 hs with rfl | hs
    · exact ⟨id, h.1⟩
    · exact ih h.2 hs

theorem ShownAt.node? {a : Arena} {parent : Option Nat} {id : Nat} {t : Tree}
    (h : t.ShownAt a parent id) :
    a.node? id = some ⟨t.kind, t.text, t.span, idsFrom (id + 1) t.children, parent⟩ := by
  cases t with
  | node kind text span children => exact h.1

end Tree

namespace Arena

variable {t : Tree} {a : Arena} {cursor : Nat}

theorem exists_leaf_of_assembled {s : Tree} (hs : s.Assembled) {parent : Option Nat} {id : Nat}
    (hshown : s.ShownAt a parent id) (hstop : s.span.stop = cursor) :
    ∃ leaf, a.IsLeafAt cursor leaf ∧ Relation.ReflTransGen (a.ClimbsTo cursor) leaf id := by
  -- By induction on how the tree is built: a branch ends with its last child.
  induction hs generalizing parent id with
  | leaf kind text start stop => exact ⟨id, ⟨_, hshown.node?, rfl, hstop⟩, .refl⟩
  | @branch kind children h ih =>
    have hcloses : a.ClosesAt cursor id := ⟨_, hshown.node?, hstop⟩
    cases hlast : children.getLast? with
    | none =>
      obtain rfl := List.getLast?_eq_none_iff.1 hlast
      exact ⟨id, ⟨_, hshown.node?, rfl, hstop⟩, .refl⟩
    | some last =>
      have hmem : last ∈ children := List.mem_of_getLast? hlast
      have hend : last.span.stop = cursor := by
        rw [← hstop, Tree.branch, hlast]
        rfl
      obtain ⟨c, hc⟩ := Tree.AllShownAt.exists_of_mem hshown.2 hmem
      have hparent : a.parent? c = some id := by
        rw [parent?, hc.node?]
        rfl
      obtain ⟨leaf, hleaf, hclimbs⟩ := ih last hmem hc hend
      exact ⟨leaf, hleaf, hclimbs.tail ⟨hparent, hcloses⟩⟩

theorem exists_leaf_climbsTo_iff (ht : t.Assembled) (h : ofTree t = .ok a) {id : Nat} :
    (∃ leaf, a.IsLeafAt cursor leaf ∧ Relation.ReflTransGen (a.ClimbsTo cursor) leaf id) ↔
      a.ClosesAt cursor id := by
  constructor
  · rintro ⟨leaf, ⟨n, hn, _, hstop⟩, hclimbs⟩
    cases hclimbs with
    | refl => exact ⟨n, hn, hstop⟩
    | tail _ hclimb => exact hclimb.2
  · rintro ⟨n, hn, hstop⟩
    obtain ⟨parent, s, hs, hshown⟩ :=
      exists_shownAt_of_forall h ht (fun _ => Tree.Assembled.child) hn
    obtain rfl := Option.some.inj (hn.symm.trans hshown.node?)
    exact exists_leaf_of_assembled hs hshown hstop

theorem hasLeafAt_iff_of_assembled (ht : t.Assembled) (h : ofTree t = .ok a) :
    a.HasLeafAt cursor ↔ ∃ id, a.ClosesAt cursor id := by
  constructor
  · rintro ⟨leaf, n, hn, _, hstop⟩
    exact ⟨leaf, n, hn, hstop⟩
  · rintro ⟨id, hid⟩
    obtain ⟨leaf, hleaf, _⟩ := (exists_leaf_climbsTo_iff ht h).2 hid
    exact ⟨leaf, hleaf⟩

/-- In a tree built from leaves and branches, something closes at the cursor exactly if some node ends
there, and with all leaves chosen the nodes that close there are all that end there. -/
theorem closingNodes_all_of_assembled (ht : t.Assembled) (h : ofTree t = .ok a) {root : Node}
    (hroot : a.node? 0 = some root) (hcursor : cursor ≤ root.span.stop) :
    ((∃ ids, a.closingNodes cursor .all = .ok ids) ↔ ∃ id, a.ClosesAt cursor id) ∧
      ∀ ids, a.closingNodes cursor .all = .ok ids → ∀ id, id ∈ ids ↔ a.ClosesAt cursor id := by
  rw [← extent_of_node?_zero hroot] at hcursor
  rw [← hasLeafAt_iff_of_assembled ht h]
  by_cases hleaf : a.HasLeafAt cursor
  · have hnodes := closingNodes_of_hasLeafAt hcursor hleaf .all
    refine ⟨⟨fun _ => hleaf, fun _ => ⟨_, hnodes⟩⟩, ?_⟩
    intro ids hids id
    obtain rfl := Except.ok.inj (hnodes.symm.trans hids)
    rw [mem_closingNodes_all_iff h, exists_leaf_climbsTo_iff ht h]
  · obtain ⟨fault, hfault⟩ := exists_fault_of_not_hasLeafAt hleaf
    simp [hfault, hleaf]

def overlapTree : Tree :=
  .branch "list" [.branch "item" [.leaf "ID" "abc" 0 3], .branch "gap" [], .leaf "END" "c" 2 3]

def overlapRoot : Node := ⟨"list", "abcc", ⟨0, 3⟩, [1, 3, 4], none⟩

def overlapArena : Arena where
  nodes := #[overlapRoot, ⟨"item", "abc", ⟨0, 3⟩, [2], some 0⟩, ⟨"ID", "abc", ⟨0, 3⟩, [], some 1⟩,
    ⟨"gap", "", ⟨0, 0⟩, [], some 0⟩, ⟨"END", "c", ⟨2, 3⟩, [], some 0⟩]
  nonempty := by decide

theorem assembled_overlapTree : overlapTree.Assembled := by
  refine .branch _ fun c hc => ?_
  simp only [List.mem_cons, List.not_mem_nil, or_false] at hc
  rcases hc with rfl | rfl | rfl
  · exact .branch _ fun d hd => List.mem_singleton.1 hd ▸ .leaf _ _ _ _
  · exact .branch _ fun d hd => absurd hd List.not_mem_nil
  · exact .leaf _ _ _ _

theorem closingNodes_overlapTree :
    overlapTree.Assembled ∧ ofTree overlapTree = .ok overlapArena ∧
      overlapArena.node? 0 = some overlapRoot ∧ 3 ≤ overlapRoot.span.stop ∧
        overlapArena.closingNodes 3 .all = .ok [4, 0, 2, 1] ∧
          ∀ id, id ∈ [4, 0, 2, 1] ↔ overlapArena.ClosesAt 3 id := by
  have hbuilt : ofTree overlapTree = .ok overlapArena := ofTree_eq_ok_iff.2 ⟨rfl, rfl⟩
  have hroot : overlapArena.node? 0 = some overlapRoot := by rfl
  have hcursor : 3 ≤ overlapRoot.span.stop := by decide
  have hleaf : overlapArena.HasLeafAt 3 := ⟨4, _, rfl, rfl, rfl⟩
  have hclosing : overlapArena.closingLeaves 3 = [2, 4] := by decide
  have hsorted : overlapArena.chosenLeaves 3 .all = [4, 2] := by
    rw [chosenLeaves, leavesByStart, hclosing]
    simp [List.mergeSort, List.MergeSort.Internal.splitInTwo, startOf, node?, overlapArena]
  have hchains : [4, 2].map (overlapArena.closingChain 3) = [[4, 0], [2, 1, 0]] := by
    simp [closingChain, ancestors, parent?, node?, endsAt, overlapArena, overlapRoot]
  have hnodes : overlapArena.closingNodes 3 .all = .ok [4, 0, 2, 1] := by
    rw [closingNodes_of_hasLeafAt hcursor hleaf, hsorted, List.flatMap_def, hchains]
    rfl
  obtain ⟨_, hmem⟩ := closingNodes_all_of_assembled assembled_overlapTree hbuilt hroot hcursor
  exact ⟨assembled_overlapTree, hbuilt, hroot, hcursor, hnodes, hmem _ hnodes⟩

end Arena

end GrammarCompletion
