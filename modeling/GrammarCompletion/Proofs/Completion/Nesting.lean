import GrammarCompletion.Proofs.Completion.Choices

/-! Trees whose spans are nested: children lie within their parent and one behind the other, and no
leaf is empty. Then whatever comes behind a leaf in pre-order starts at its end or later. So the
leaves end at different places, at most one of them at the cursor, and the choice of leaves does not
matter: what closes at the cursor is a single line from the leaf upwards. -/

namespace GrammarCompletion

namespace Arena

def stopOf (a : Arena) (id : Nat) : Nat := ((a.node? id).map (·.span.stop)).getD 0

/-- Children lie within the span of their parent, each sibling ends before the next one starts, and
every leaf takes some room. -/
structure WellNested (a : Arena) : Prop where
  within : ∀ p < a.size, ∀ c ∈ a.childrenOf p, a.startOf p ≤ a.startOf c ∧ a.stopOf c ≤ a.stopOf p
  apart : ∀ p < a.size, (a.childrenOf p).IsChain fun c d => a.stopOf c ≤ a.startOf d
  filled : ∀ id < a.size, a.childrenOf id = [] → a.startOf id < a.stopOf id

section Spans

variable {t : Tree} {a : Arena}

theorem node?_eq_none_of_le {id : Nat} (h : a.size ≤ id) : a.node? id = none :=
  Array.getElem?_eq_none h

theorem childrenOf_of_le {p : Nat} (h : a.size ≤ p) : a.childrenOf p = [] := by
  rw [childrenOf, node?_eq_none_of_le h]
  rfl

theorem stopOf_of_node? {id : Nat} {n : Node} (h : a.node? id = some n) :
    a.stopOf id = n.span.stop := by
  rw [stopOf, h]
  rfl

theorem startOf_of_node? {id : Nat} {n : Node} (h : a.node? id = some n) :
    a.startOf id = n.span.start := by
  rw [startOf, h]
  rfl

theorem startOf_le_stopOf (h : ofTree t = .ok a) (id : Nat) : a.startOf id ≤ a.stopOf id := by
  cases hnode : a.node? id with
  | none =>
    rw [startOf, hnode]
    exact Nat.zero_le _
  | some n =>
    rw [startOf_of_node? hnode, stopOf_of_node? hnode]
    have hmem : n ∈ t.flatten none 0 := by
      rw [← nodes_ofTree h]
      exact Array.mem_toList_iff.2 (Array.mem_of_getElem? hnode)
    have hstraight := isReversed_of_mem_flatten h hmem
    simpa [Node.isReversed] using hstraight

theorem WellNested.within_of_mem (h : a.WellNested) {p c : Nat} (hc : c ∈ a.childrenOf p) :
    a.startOf p ≤ a.startOf c ∧ a.stopOf c ≤ a.stopOf p := by
  by_cases hp : p < a.size
  · exact h.within p hp c hc
  · simp [childrenOf_of_le (Nat.le_of_not_lt hp)] at hc

theorem WellNested.pairwise (h : a.WellNested) (hordered : ∀ id, a.startOf id ≤ a.stopOf id)
    (p : Nat) : (a.childrenOf p).Pairwise fun c d => a.stopOf c ≤ a.startOf d := by
  -- Sibling order passes over a sibling because that one ends no earlier than it starts.
  have : Trans (fun c d => a.stopOf c ≤ a.startOf d) (fun c d => a.stopOf c ≤ a.startOf d)
      (fun c d => a.stopOf c ≤ a.startOf d) := by
    refine ⟨fun {x y z} hxy hyz => ?_⟩
    exact Nat.le_trans hxy (Nat.le_trans (hordered y) hyz)
  by_cases hp : p < a.size
  · exact (h.apart p hp).pairwise
  · rw [childrenOf_of_le (Nat.le_of_not_lt hp)]
    exact .nil

end Spans

end Arena

namespace Tree

variable {a : Arena}

mutual

theorem ShownAt.within (hnested : a.WellNested) {parent : Option Nat} {id : Nat} :
    {t : Tree} → t.ShownAt a parent id → (j : Nat) → id ≤ j → j < id + t.size →
      a.startOf id ≤ a.startOf j ∧ a.stopOf j ≤ a.stopOf id
  | node kind text span children, h, j, hle, hlt => by
    by_cases hj : j = id
    · rw [hj]
      exact ⟨Nat.le_refl _, Nat.le_refl _⟩
    · have hchildren : a.childrenOf id = idsFrom (id + 1) children :=
        Arena.childrenOf_of_node? h.1
      rw [size] at hlt
      exact AllShownAt.within hnested h.2 (fun c hc => hchildren ▸ hc) j (by omega) (by omega)

theorem AllShownAt.within (hnested : a.WellNested) {p id : Nat} :
    {ts : List Tree} → AllShownAt a p id ts → idsFrom id ts ⊆ a.childrenOf p → (j : Nat) →
      id ≤ j → j < id + sizeAll ts → a.startOf p ≤ a.startOf j ∧ a.stopOf j ≤ a.stopOf p
  | [], _, _, j, hle, hlt => by
    rw [sizeAll] at hlt
    omega
  | t :: ts, h, hsubset, j, hle, hlt => by
    rw [sizeAll] at hlt
    rw [idsFrom, List.cons_subset] at hsubset
    by_cases hj : j < id + t.size
    · have hchild := hnested.within_of_mem hsubset.1
      have hbelow := ShownAt.within hnested h.1 j hle hj
      omega
    · exact AllShownAt.within hnested h.2 hsubset.2 j (by omega) (by omega)

end

theorem AllShownAt.le_startOf (hnested : a.WellNested) {p id bound : Nat} {ts : List Tree}
    (h : AllShownAt a p id ts) (hbound : ∀ c ∈ idsFrom id ts, bound ≤ a.startOf c) {j : Nat}
    (hle : id ≤ j) (hlt : j < id + sizeAll ts) : bound ≤ a.startOf j := by
  induction ts generalizing id with
  | nil =>
    rw [sizeAll] at hlt
    omega
  | cons t ts ih =>
    rw [sizeAll] at hlt
    rw [idsFrom, List.forall_mem_cons] at hbound
    by_cases hj : j < id + t.size
    · exact Nat.le_trans hbound.1 (ShownAt.within hnested h.1 j hle hj).1
    · exact ih h.2 hbound.2 (by omega) (by omega)

mutual

/-- What comes behind a leaf in pre-order starts at its end or later. -/
theorem ShownAt.stopOf_le_startOf (hnested : a.WellNested)
    (hordered : ∀ id, a.startOf id ≤ a.stopOf id) {parent : Option Nat} {id : Nat} :
    {t : Tree} → t.ShownAt a parent id → (x y : Nat) → id ≤ x → x < y → y < id + t.size →
      a.childrenOf x = [] → a.stopOf x ≤ a.startOf y
  | node kind text span children, h, x, y, hle, hxy, hlt, hleaf => by
    have hchildren : a.childrenOf id = idsFrom (id + 1) children := Arena.childrenOf_of_node? h.1
    have hapart := hnested.pairwise hordered id
    rw [hchildren] at hapart
    rw [size] at hlt
    by_cases hx : x = id
    · -- The root of the tree is a leaf only if nothing comes behind it.
      rw [hx, hchildren] at hleaf
      cases children with
      | nil =>
        rw [sizeAll] at hlt
        omega
      | cons t ts => simp [idsFrom] at hleaf
    · exact AllShownAt.stopOf_le_startOf hnested hordered h.2 hapart x y (by omega) hxy (by omega)
        hleaf

theorem AllShownAt.stopOf_le_startOf (hnested : a.WellNested)
    (hordered : ∀ id, a.startOf id ≤ a.stopOf id) {p id : Nat} :
    {ts : List Tree} → AllShownAt a p id ts →
      (idsFrom id ts).Pairwise (fun c d => a.stopOf c ≤ a.startOf d) → (x y : Nat) → id ≤ x →
        x < y → y < id + sizeAll ts → a.childrenOf x = [] → a.stopOf x ≤ a.startOf y
  | [], _, _, x, y, hle, hxy, hlt, _ => by
    rw [sizeAll] at hlt
    omega
  | t :: ts, h, hapart, x, y, hle, hxy, hlt, hleaf => by
    rw [sizeAll] at hlt
    rw [idsFrom, List.pairwise_cons] at hapart
    by_cases hy : y < id + t.size
    · exact ShownAt.stopOf_le_startOf hnested hordered h.1 x y hle hxy hy hleaf
    · by_cases hx : x < id + t.size
      · -- The leaf is in the first tree and the other node in a later one.
        have hfirst := (ShownAt.within hnested h.1 x hle hx).2
        have hlater := AllShownAt.le_startOf hnested h.2 hapart.1 (j := y) (by omega) (by omega)
        exact Nat.le_trans hfirst hlater
      · exact AllShownAt.stopOf_le_startOf hnested hordered h.2 hapart.2 x y (by omega) hxy
          (by omega) hleaf

end

end Tree

namespace Arena

variable {t : Tree} {a : Arena} {cursor : Nat}

theorem stopOf_of_isLeafAt {id : Nat} (h : a.IsLeafAt cursor id) : a.stopOf id = cursor := by
  obtain ⟨n, hn, _, hstop⟩ := h
  rw [stopOf_of_node? hn, hstop]

theorem IsLeafAt.childrenOf_eq_nil {id : Nat} (h : a.IsLeafAt cursor id) :
    id < a.size ∧ a.childrenOf id = [] := by
  obtain ⟨n, hn, hchildren, _⟩ := h
  exact ⟨(Array.getElem?_eq_some_iff.1 hn).1, by rw [childrenOf_of_node? hn, hchildren]⟩

theorem WellNested.not_isLeafAt_of_lt (hnested : a.WellNested) (h : ofTree t = .ok a) {x y : Nat}
    (hx : a.IsLeafAt cursor x) (hxy : x < y) : ¬ a.IsLeafAt cursor y := by
  intro hy
  obtain ⟨hsize, hchildren⟩ := hy.childrenOf_eq_nil
  have hroom := hnested.filled y hsize hchildren
  -- The later leaf starts at the end of the earlier one or behind it, and ends behind its start.
  have hbehind : a.stopOf x ≤ a.startOf y := by
    rw [size_ofTree h] at hsize
    exact (shownAt_ofTree h).stopOf_le_startOf hnested (startOf_le_stopOf h) x y (Nat.zero_le x) hxy
      (by omega) hx.childrenOf_eq_nil.2
  rw [stopOf_of_isLeafAt hx] at hbehind
  rw [stopOf_of_isLeafAt hy] at hroom
  omega

theorem WellNested.isLeafAt_unique (hnested : a.WellNested) (h : ofTree t = .ok a) {x y : Nat}
    (hx : a.IsLeafAt cursor x) (hy : a.IsLeafAt cursor y) : x = y := by
  rcases Nat.lt_trichotomy x y with hlt | heq | hlt
  · exact absurd hy (hnested.not_isLeafAt_of_lt h hx hlt)
  · exact heq
  · exact absurd hx (hnested.not_isLeafAt_of_lt h hy hlt)

theorem WellNested.le_extent (hnested : a.WellNested) (h : ofTree t = .ok a) {leaf : Nat}
    (hleaf : a.IsLeafAt cursor leaf) : cursor ≤ a.extent := by
  have hsize := hleaf.childrenOf_eq_nil.1
  rw [size_ofTree h] at hsize
  have hwithin := (shownAt_ofTree h).within hnested leaf (Nat.zero_le leaf) (by omega)
  obtain ⟨root, hroot⟩ : ∃ root, a.node? 0 = some root :=
    ⟨_, Array.getElem?_eq_getElem a.nonempty⟩
  rw [stopOf_of_isLeafAt hleaf, stopOf_of_node? hroot, ← extent_of_node?_zero hroot] at hwithin
  exact hwithin.2

theorem closingLeaves_of_unique {leaf : Nat} (hleaf : a.IsLeafAt cursor leaf)
    (hunique : ∀ other, a.IsLeafAt cursor other → other = leaf) :
    a.closingLeaves cursor = [leaf] := by
  have hnodup : (a.closingLeaves cursor).Nodup :=
    (closingLeaves_pairwise_lt a cursor).imp Nat.ne_of_lt
  rw [← List.perm_singleton, List.perm_ext_iff_of_nodup hnodup (List.nodup_singleton leaf)]
  intro id
  rw [mem_closingLeaves_iff, List.mem_singleton]
  exact ⟨hunique id, fun heq => heq ▸ hleaf⟩

theorem chosenLeaves_of_closingLeaves {leaf : Nat} (h : a.closingLeaves cursor = [leaf])
    (choice : LeafChoice) : a.chosenLeaves cursor choice = [leaf] := by
  cases choice with
  | all => rw [chosenLeaves, leavesByStart, h, List.mergeSort_singleton]
  | rightmost =>
    rw [chosenLeaves, leavesByStart, h, List.mergeSort_singleton]
    rfl
  | first =>
    rw [chosenLeaves, h]
    rfl

theorem pairwise_ancestors (h : ofTree t = .ok a) (id : Nat) :
    (id :: a.ancestors id).Pairwise fun x y => y ∈ a.ancestors x := by
  induction id using Nat.strongRecOn with
  | ind id ih =>
    refine .cons (fun y hy => hy) ?_
    cases hparent : a.parent? id with
    | none =>
      have hnil : a.ancestors id = [] := by rw [ancestors, hparent]
      rw [hnil]
      exact .nil
    | some p =>
      obtain ⟨hlt, hancestors⟩ := ancestors_of_parent? h hparent
      rw [hancestors]
      exact ih p hlt

theorem closingChain_isPrefix (a : Arena) (cursor leaf : Nat) :
    a.closingChain cursor leaf <+: leaf :: a.ancestors leaf :=
  List.cons_prefix_cons.2 ⟨rfl, List.takeWhile_prefix _⟩

theorem closingNodes_of_unique (h : ofTree t = .ok a) {leaf : Nat} (hcursor : cursor ≤ a.extent)
    (hleaf : a.IsLeafAt cursor leaf) (hunique : ∀ other, a.IsLeafAt cursor other → other = leaf)
    (choice : LeafChoice) : a.closingNodes cursor choice = .ok (a.closingChain cursor leaf) := by
  have hnodup : (a.closingChain cursor leaf).Nodup := by
    have hlineage := isLineage_ancestors h hleaf.childrenOf_eq_nil.1
    exact (hlineage.decreasing.imp Nat.ne_of_gt).sublist (closingChain_isPrefix a cursor leaf).sublist
  rw [closingNodes_of_hasLeafAt hcursor ⟨leaf, hleaf⟩,
    chosenLeaves_of_closingLeaves (closingLeaves_of_unique hleaf hunique), List.flatMap_singleton,
    eraseDups_of_nodup hnodup]

/-- In a well-nested tree at most one leaf ends at the cursor. If one does, each choice of leaves gives
the same nodes: the leaf, its parent and so on upwards, as long as they end at the cursor. If none
does, each choice fails alike. -/
theorem closingNodes_of_wellNested (h : ofTree t = .ok a) (hnested : a.WellNested) (cursor : Nat) :
    (∀ x y, a.IsLeafAt cursor x → a.IsLeafAt cursor y → x = y) ∧
    ((∃ leaf ids, a.IsLeafAt cursor leaf ∧
        (∀ choice, a.closingNodes cursor choice = .ok ids) ∧ a.IsClosingChain cursor leaf ids ∧
        ids.IsChain (fun c p => a.parent? c = some p) ∧
        ids.Pairwise fun x y => y ∈ a.ancestors x) ∨
      ¬ a.HasLeafAt cursor ∧
        ∃ fault, ∀ choice, a.closingNodes cursor choice = .error fault) := by
  refine ⟨fun x y => hnested.isLeafAt_unique h, ?_⟩
  by_cases hhas : a.HasLeafAt cursor
  · obtain ⟨leaf, hleaf⟩ : ∃ leaf, a.IsLeafAt cursor leaf := hhas
    have hunique : ∀ other, a.IsLeafAt cursor other → other = leaf :=
      fun other hother => hnested.isLeafAt_unique h hother hleaf
    have hbegins := closingChain_isPrefix a cursor leaf
    have hlineage := isLineage_ancestors h hleaf.childrenOf_eq_nil.1
    exact .inl ⟨leaf, _, hleaf,
      closingNodes_of_unique h (hnested.le_extent h hleaf) hleaf hunique,
      isClosingChain_closingChain a cursor leaf, List.IsChain.prefix hlineage.parents hbegins,
      (pairwise_ancestors h leaf).sublist hbegins.sublist⟩
  · exact .inr ⟨hhas, exists_fault_of_not_hasLeafAt hhas⟩

def brokenSum : Tree :=
  .node "expr" "12 +" ⟨0, 4⟩ [.node "term" "12" ⟨0, 2⟩ [.leaf "NUMBER" "12" 0 2],
    .leaf "'+'" "+" 3 4]

def brokenSumArena : Arena where
  nodes := #[⟨"expr", "12 +", ⟨0, 4⟩, [1, 3], none⟩, ⟨"term", "12", ⟨0, 2⟩, [2], some 0⟩,
    ⟨"NUMBER", "12", ⟨0, 2⟩, [], some 1⟩, ⟨"'+'", "+", ⟨3, 4⟩, [], some 0⟩]
  nonempty := by decide

theorem closingNodes_brokenSum :
    ofTree brokenSum = .ok brokenSumArena ∧ brokenSumArena.WellNested ∧
      (∀ choice, brokenSumArena.closingNodes 2 choice = .ok [2, 1]) ∧
        brokenSumArena.IsClosingChain 2 2 [2, 1] ∧
          ∃ fault, ∀ choice, brokenSumArena.closingNodes 3 choice = .error fault := by
  have hbuilt : ofTree brokenSum = .ok brokenSumArena := ofTree_eq_ok_iff.2 ⟨rfl, rfl⟩
  have hnested : brokenSumArena.WellNested := ⟨by decide, by decide, by decide⟩
  have hleaf : brokenSumArena.IsLeafAt 2 2 := ⟨_, rfl, rfl, rfl⟩
  have hnodes : brokenSumArena.closingNodes 2 .all = .ok [2, 1] := by cbv
  have hblank : ¬ brokenSumArena.HasLeafAt 3 := by
    rw [← closingLeaves_eq_nil_iff]
    decide
  obtain ⟨hunique, hcases⟩ := closingNodes_of_wellNested hbuilt hnested 2
  obtain ⟨leaf, ids, hmet, hids, hchain, _⟩ := hcases.resolve_right fun hno => hno.1 ⟨2, hleaf⟩
  obtain rfl : [2, 1] = ids := Except.ok.inj (hnodes.symm.trans (hids .all))
  obtain rfl : 2 = leaf := hunique 2 leaf hleaf hmet
  obtain ⟨_, hcases⟩ := closingNodes_of_wellNested hbuilt hnested 3
  rcases hcases with ⟨other, _, hother, _⟩ | ⟨_, hfault⟩
  · exact absurd ⟨other, hother⟩ hblank
  · exact ⟨hbuilt, hnested, hids, hchain, hfault⟩

end Arena

end GrammarCompletion
