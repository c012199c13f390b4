import Mathlib.Data.List.TakeWhile
import Mathlib.Logic.Relation
import GrammarCompletion.Proofs.Completion.Suggestion
import GrammarCompletion.Proofs.Tree.Flattening

/-! Which nodes close at a cursor. The leaves that end there are taken by descending start, in
pre-order where they start together, and each climbs to its ancestors until one ends elsewhere. So a
node is met from some leaf exactly if a way leads from a leaf up to it on which all nodes end at the
cursor. -/

namespace GrammarCompletion

theorem not_pair_sublist_of_nodup {α : Type} {l : List α} {x y : α} (hnodup : l.Nodup)
    (h : [x, y].Sublist l) : ¬ [y, x].Sublist l := by
  intro hswap
  induction l with
  | nil => simp at h
  | cons z l ih =>
    obtain ⟨hz, hnodup⟩ := List.nodup_cons.1 hnodup
    rcases List.sublist_cons_iff.1 h with hxy | ⟨rest, heq, hrest⟩
    · rcases List.sublist_cons_iff.1 hswap with hyx | ⟨_, heq, _⟩
      · exact ih hnodup hxy hyx
      · obtain ⟨rfl, _⟩ := List.cons.inj heq
        exact hz (hxy.subset (by simp))
    · obtain ⟨rfl, rfl⟩ := List.cons.inj heq
      have hy : y ∈ l := hrest.subset (by simp)
      rcases List.sublist_cons_iff.1 hswap with hyx | ⟨_, heq, _⟩
      · exact hz (hyx.subset (by simp))
      · obtain ⟨rfl, _⟩ := List.cons.inj heq
        exact hz hy

theorem pair_sublist_of_lt {l : List Nat} {x y : Nat} (hl : l.Pairwise (· < ·)) (hx : x ∈ l)
    (hy : y ∈ l) (hlt : x < y) : [x, y].Sublist l := by
  obtain ⟨front, back, rfl⟩ := List.append_of_mem hx
  have hback : y ∈ back := by
    rcases List.mem_append.1 hy with hfront | hback
    · have hyx : y < x := (List.pairwise_append.1 hl).2.2 y hfront x List.mem_cons_self
      omega
    · rcases List.mem_cons.1 hback with rfl | hback
      · omega
      · exact hback
  have hpair : [x, y].Sublist (x :: back) := (List.singleton_sublist.2 hback).cons_cons x
  exact hpair.trans (List.sublist_append_right front (x :: back))

namespace Arena

variable {t : Tree} {a : Arena} {cursor : Nat}

def IsLeafAt (a : Arena) (cursor id : Nat) : Prop :=
  ∃ n, a.node? id = some n ∧ n.children = [] ∧ n.span.stop = cursor

def ClosesAt (a : Arena) (cursor id : Nat) : Prop :=
  ∃ n, a.node? id = some n ∧ n.span.stop = cursor

theorem endsAt_iff {id : Nat} : a.endsAt cursor id = true ↔ a.ClosesAt cursor id := by
  unfold endsAt ClosesAt
  cases a.node? id <;> simp

section Leaves

/-- The leaves that end at the cursor, where one that starts later comes first and pre-order decides
between equal starts. -/
structure IsClosingOrder (a : Arena) (cursor : Nat) (leaves : List Nat) : Prop where
  mem_iff : ∀ id, id ∈ leaves ↔ a.IsLeafAt cursor id
  sorted : leaves.Pairwise fun x y =>
    a.startOf y < a.startOf x ∨ a.startOf x = a.startOf y ∧ x < y

theorem closingLeaves_pairwise_lt (a : Arena) (cursor : Nat) :
    (a.closingLeaves cursor).Pairwise (· < ·) :=
  List.pairwise_lt_range.filter _

theorem isClosingOrder_leavesByStart (a : Arena) (cursor : Nat) :
    a.IsClosingOrder cursor (a.leavesByStart cursor) where
  mem_iff := by
    intro id
    rw [leavesByStart, List.mem_mergeSort]
    exact mem_closingLeaves_iff
  sorted := by
    have htrans : ∀ x y z, decide (a.startOf y ≤ a.startOf x) → decide (a.startOf z ≤ a.startOf y) →
        decide (a.startOf z ≤ a.startOf x) := by
      intro x y z hxy hyz
      exact decide_eq_true (Nat.le_trans (of_decide_eq_true hyz) (of_decide_eq_true hxy))
    have htotal : ∀ x y, decide (a.startOf y ≤ a.startOf x) || decide (a.startOf x ≤ a.startOf y) := by
      intro x y
      simpa using Nat.le_total (a.startOf y) (a.startOf x)
    have hlt := closingLeaves_pairwise_lt a cursor
    have hnodup : (a.leavesByStart cursor).Nodup :=
      (List.mergeSort_perm _ _).nodup_iff.2 (hlt.imp Nat.ne_of_lt)
    have hsorted := List.pairwise_mergeSort htrans htotal (a.closingLeaves cursor)
    rw [List.pairwise_iff_forall_sublist]
    intro x y hpair
    have hle : a.startOf y ≤ a.startOf x :=
      of_decide_eq_true (List.pairwise_iff_forall_sublist.1 hsorted hpair)
    by_cases hstart : a.startOf y < a.startOf x
    · exact .inl hstart
    · -- Leaves that start together keep their order, so the later one cannot come first.
      have heq : a.startOf x = a.startOf y := by omega
      have hx : x ∈ a.closingLeaves cursor := List.mem_mergeSort.1 (hpair.subset (by simp))
      have hy : y ∈ a.closingLeaves cursor := List.mem_mergeSort.1 (hpair.subset (by simp))
      refine .inr ⟨heq, ?_⟩
      by_contra hge
      rcases Nat.lt_or_eq_of_le (Nat.le_of_not_lt hge) with hyx | rfl
      · have hswap := List.pair_sublist_mergeSort htrans htotal
          (decide_eq_true (Nat.le_of_eq heq)) (pair_sublist_of_lt hlt hy hx hyx)
        exact not_pair_sublist_of_nodup hnodup hpair hswap
      · exact not_pair_sublist_of_nodup hnodup hpair hpair

inductive Selects (a : Arena) (cursor : Nat) : LeafChoice → List Nat → Prop where
  | all {leaves : List Nat} (h : a.IsClosingOrder cursor leaves) : Selects a cursor .all leaves
  | rightmost {leaf : Nat} {rest : List Nat} (h : a.IsClosingOrder cursor (leaf :: rest)) :
      Selects a cursor .rightmost [leaf]
  | first {leaf : Nat} (h : a.IsLeafAt cursor leaf)
      (least : ∀ other, a.IsLeafAt cursor other → leaf ≤ other) : Selects a cursor .first [leaf]

theorem selects_chosenLeaves (h : a.HasLeafAt cursor) (choice : LeafChoice) :
    a.Selects cursor choice (a.chosenLeaves cursor choice) := by
  obtain ⟨met, hmet⟩ := h
  have horder := isClosingOrder_leavesByStart a cursor
  cases choice with
  | all => exact .all horder
  | rightmost =>
    have hmem := (horder.mem_iff met).2 hmet
    rw [chosenLeaves]
    cases hleaves : a.leavesByStart cursor with
    | nil => simp [hleaves] at hmem
    | cons leaf rest => exact .rightmost (hleaves ▸ horder)
  | first =>
    have hmem : met ∈ a.closingLeaves cursor := mem_closingLeaves_iff.2 hmet
    have hlt := closingLeaves_pairwise_lt a cursor
    rw [chosenLeaves]
    cases hleaves : a.closingLeaves cursor with
    | nil => simp [hleaves] at hmem
    | cons leaf rest =>
      refine .first (mem_closingLeaves_iff.1 (by simp [hleaves])) fun other hother => ?_
      have hmem : other ∈ leaf :: rest := hleaves ▸ mem_closingLeaves_iff.2 hother
      rcases List.mem_cons.1 hmem with rfl | hrest
      · exact Nat.le_refl other
      · exact Nat.le_of_lt (List.rel_of_pairwise_cons (hleaves ▸ hlt) hrest)

end Leaves

section Chains

/-- A leaf, then its ancestors up to but without the first that ends elsewhere. -/
inductive IsClosingChain (a : Arena) (cursor leaf : Nat) : List Nat → Prop where
  | intro {closed beyond : List Nat} (ancestors : a.ancestors leaf = closed ++ beyond)
      (closes : ∀ id ∈ closed, a.ClosesAt cursor id)
      (stops : ∀ id ∈ beyond.head?, ¬ a.ClosesAt cursor id) :
      IsClosingChain a cursor leaf (leaf :: closed)

theorem isClosingChain_closingChain (a : Arena) (cursor leaf : Nat) :
    a.IsClosingChain cursor leaf (a.closingChain cursor leaf) := by
  refine .intro List.takeWhile_append_dropWhile.symm ?_ ?_
  · intro id hid
    exact endsAt_iff.1 (List.mem_takeWhile_imp hid)
  · intro id hid hcloses
    have hnot := List.head?_dropWhile_not (a.endsAt cursor) (a.ancestors leaf)
    rw [hid] at hnot
    have hopen : a.endsAt cursor id = false := hnot
    rw [endsAt_iff.2 hcloses] at hopen
    exact Bool.noConfusion hopen

def ClimbsTo (a : Arena) (cursor c p : Nat) : Prop := a.parent? c = some p ∧ a.ClosesAt cursor p

theorem closingChain_of_climbsTo (h : ofTree t = .ok a) {c p : Nat} (hclimb : a.ClimbsTo cursor c p) :
    a.closingChain cursor c = c :: a.closingChain cursor p := by
  unfold closingChain
  rw [(ancestors_of_parent? h hclimb.1).2, List.takeWhile_cons, if_pos (endsAt_iff.2 hclimb.2)]

theorem closingChain_of_not_climbsTo (h : ofTree t = .ok a) {c : Nat}
    (hno : ∀ p, ¬ a.ClimbsTo cursor c p) : a.closingChain cursor c = [c] := by
  unfold closingChain
  cases hparent : a.parent? c with
  | none =>
    have hnil : a.ancestors c = [] := by rw [ancestors, hparent]
    rw [hnil, List.takeWhile_nil]
  | some p =>
    have hopen : ¬ a.endsAt cursor p = true := fun hends => hno p ⟨hparent, endsAt_iff.1 hends⟩
    rw [(ancestors_of_parent? h hparent).2, List.takeWhile_cons, if_neg hopen]

theorem mem_closingChain_iff (h : ofTree t = .ok a) {leaf id : Nat} :
    id ∈ a.closingChain cursor leaf ↔ Relation.ReflTransGen (a.ClimbsTo cursor) leaf id := by
  constructor
  · intro hid
    induction leaf using Nat.strongRecOn with
    | ind leaf ih =>
      by_cases hclimb : ∃ p, a.ClimbsTo cursor leaf p
      · obtain ⟨p, hp⟩ := hclimb
        rw [closingChain_of_climbsTo h hp] at hid
        rcases List.mem_cons.1 hid with rfl | hid
        · exact .refl
        · exact .head hp (ih p (ancestors_of_parent? h hp.1).1 hid)
      · rw [closingChain_of_not_climbsTo h (not_exists.1 hclimb)] at hid
        rw [List.mem_singleton.1 hid]
  · intro hclimbs
    induction hclimbs using Relation.ReflTransGen.head_induction_on with
    | refl => exact List.mem_cons_self
    | head hclimb _ ih =>
      rw [closingChain_of_climbsTo h hclimb]
      exact List.mem_cons_of_mem _ ih

end Chains

theorem closingNodes_of_hasLeafAt (hcursor : cursor ≤ a.extent) (hleaf : a.HasLeafAt cursor)
    (choice : LeafChoice) :
    a.closingNodes cursor choice =
      .ok ((a.chosenLeaves cursor choice).flatMap (a.closingChain cursor)).eraseDups := by
  unfold closingNodes
  rw [if_neg (Nat.not_lt.2 hcursor), if_neg fun hnil => closingLeaves_eq_nil_iff.1 hnil hleaf]

theorem mem_closingNodes_all_iff (h : ofTree t = .ok a) {id : Nat} :
    id ∈ ((a.chosenLeaves cursor .all).flatMap (a.closingChain cursor)).eraseDups ↔
      ∃ leaf, a.IsLeafAt cursor leaf ∧ Relation.ReflTransGen (a.ClimbsTo cursor) leaf id := by
  rw [List.mem_eraseDups, List.mem_flatMap]
  refine exists_congr fun leaf => ?_
  rw [mem_closingChain_iff h]
  exact and_congr_left' ((isClosingOrder_leavesByStart a cursor).mem_iff leaf)

/-- Where a leaf ends at the cursor, the nodes that close there are the chains of the chosen leaves in
turn, each node at its first place. With all leaves chosen, these are the nodes that a way of closing
nodes leads up to from a leaf. -/
theorem closingNodes_chain_leaves (h : ofTree t = .ok a) {root : Node} (hroot : a.node? 0 = some root)
    (hcursor : cursor ≤ root.span.stop) (hleaf : a.HasLeafAt cursor) (choice : LeafChoice) :
    ∃ ids leaves chains, a.closingNodes cursor choice = .ok ids ∧ ids.Nodup ∧
      a.Selects cursor choice leaves ∧
      List.Forall₂ (fun leaf chain => a.IsClosingChain cursor leaf chain) leaves chains ∧
      ids = chains.flatten.eraseDups ∧
      (choice = .all → ∀ id, id ∈ ids ↔
        ∃ leaf, a.IsLeafAt cursor leaf ∧ Relation.ReflTransGen (a.ClimbsTo cursor) leaf id) := by
  rw [← extent_of_node?_zero hroot] at hcursor
  have hchains : List.Forall₂ (fun leaf chain => a.IsClosingChain cursor leaf chain)
      (a.chosenLeaves cursor choice)
      ((a.chosenLeaves cursor choice).map (a.closingChain cursor)) := by
    rw [List.forall₂_map_right_iff, List.forall₂_same]
    exact fun leaf _ => isClosingChain_closingChain a cursor leaf
  refine ⟨_, a.chosenLeaves cursor choice, _, closingNodes_of_hasLeafAt hcursor hleaf choice,
    nodup_eraseDups _, selects_chosenLeaves hleaf choice, hchains, ?_, ?_⟩
  · rw [List.flatMap_def]
  · rintro rfl id
    exact mem_closingNodes_all_iff h

def gapRoot : Node := ⟨"list", "ab", ⟨0, 2⟩, [1, 3, 4], none⟩

def gapTree : Tree :=
  .node "list" "ab" ⟨0, 2⟩ [.node "item" "ab" ⟨0, 3⟩ [.leaf "ID" "ab" 0 2], .leaf "gap" "" 2 2,
    .leaf "end" "" 2 2]

def gapArena : Arena where
  nodes := #[gapRoot, ⟨"item", "ab", ⟨0, 3⟩, [2], some 0⟩, ⟨"ID", "ab", ⟨0, 2⟩, [], some 1⟩,
    ⟨"gap", "", ⟨2, 2⟩, [], some 0⟩, ⟨"end", "", ⟨2, 2⟩, [], some 0⟩]
  nonempty := by decide

theorem closingNodes_chain_leaves_gap :
    ofTree gapTree = .ok gapArena ∧ gapArena.node? 0 = some gapRoot ∧ 2 ≤ gapRoot.span.stop ∧
      gapArena.HasLeafAt 2 ∧ gapArena.closingNodes 2 .all = .ok [3, 0, 4, 2] ∧
        ∀ id, id ∈ [3, 0, 4, 2] ↔ ∃ leaf, gapArena.IsLeafAt 2 leaf ∧
          Relation.ReflTransGen (gapArena.ClimbsTo 2) leaf id := by
  have hbuilt : ofTree gapTree = .ok gapArena := ofTree_eq_ok_iff.2 ⟨rfl, rfl⟩
  have hroot : gapArena.node? 0 = some gapRoot := by rfl
  have hcursor : 2 ≤ gapRoot.span.stop := by decide
  have hleaf : gapArena.HasLeafAt 2 := ⟨2, _, rfl, rfl, rfl⟩
  have hclosing : gapArena.closingLeaves 2 = [2, 3, 4] := by decide
  have hsorted : gapArena.chosenLeaves 2 .all = [3, 4, 2] := by
    rw [chosenLeaves, leavesByStart, hclosing]
    simp [List.mergeSort, List.MergeSort.Internal.splitInTwo, startOf, node?, gapArena, gapRoot]
  have hchains : [3, 4, 2].map (gapArena.closingChain 2) = [[3, 0], [4, 0], [2]] := by
    simp [closingChain, ancestors, parent?, node?, endsAt, gapArena, gapRoot]
  have hnodes : gapArena.closingNodes 2 .all = .ok [3, 0, 4, 2] := by
    rw [closingNodes_of_hasLeafAt hcursor hleaf, hsorted, List.flatMap_def, hchains]
    rfl
  obtain ⟨ids, _, _, hids, _, _, _, _, hmem⟩ :=
    closingNodes_chain_leaves hbuilt hroot hcursor hleaf .all
  obtain rfl : [3, 0, 4, 2] = ids := Except.ok.inj (hnodes.symm.trans hids)
  exact ⟨hbuilt, hroot, hcursor, hleaf, hnodes, hmem rfl⟩

end Arena

end GrammarCompletion
