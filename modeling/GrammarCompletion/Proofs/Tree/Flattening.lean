import Mathlib.Data.List.Chain
import Mathlib.Data.List.Nodup
import GrammarCompletion.Proofs.Tree.Arena

/-! Numbering the nodes of a tree loses nothing. The arena lists the nodes in pre-order, the tree can
be put together again from its root, and the links up and down agree: parents have the smaller
numbers, so following them ends at the root. A tree is refused for the first reversed span in
pre-order, and for nothing else. -/

namespace GrammarCompletion

namespace Tree

mutual

def preorder : Tree → List Tree
  | node kind text span children => node kind text span children :: preorderAll children

def preorderAll : List Tree → List Tree
  | [] => []
  | t :: ts => t.preorder ++ preorderAll ts

end

def content (t : Tree) : String × String × Span := (t.kind, t.text, t.span)

end Tree

def Node.content (n : Node) : String × String × Span := (n.kind, n.text, n.span)

theorem contents_eq {t : Tree} {n : Node} (h : t.content = n.content) :
    t.kind = n.kind ∧ t.text = n.text ∧ t.span = n.span := by
  simpa only [Tree.content, Node.content, Prod.mk.injEq] using h

def isReversedContent (content : String × String × Span) : Bool :=
  content.2.2.stop < content.2.2.start

namespace Tree

mutual

theorem map_content_flatten (parent : Option Nat) (id : Nat) :
    (t : Tree) → (t.flatten parent id).map Node.content = t.preorder.map content
  | node kind text span children => by
    have hchildren := map_content_flattenAll id (id + 1) children
    rw [flatten, preorder, List.map_cons, List.map_cons, hchildren]
    rfl

theorem map_content_flattenAll (parent id : Nat) :
    (ts : List Tree) → (flattenAll parent id ts).map Node.content = (preorderAll ts).map content
  | [] => rfl
  | t :: ts => by
    have hfirst := map_content_flatten (some parent) id t
    have hrest := map_content_flattenAll parent (id + t.size) ts
    rw [flattenAll, preorderAll, List.map_append, List.map_append, hfirst, hrest]

end

end Tree

namespace Arena

section Refusal

variable {t : Tree}

theorem map_content_find? (t : Tree) :
    ((t.flatten none 0).find? Node.isReversed).map Node.content =
      (t.preorder.find? fun s => isReversedContent s.content).map Tree.content := by
  have hnodes : ((t.flatten none 0).map Node.content).find? isReversedContent =
      ((t.flatten none 0).find? Node.isReversed).map Node.content := List.find?_map
  have htrees : (t.preorder.map Tree.content).find? isReversedContent =
      (t.preorder.find? fun s => isReversedContent s.content).map Tree.content := List.find?_map
  rw [← hnodes, ← htrees, Tree.map_content_flatten]

theorem ofTree_eq_error_iff {fault : Tree.Fault} :
    ofTree t = .error fault ↔
      ∃ s, (t.preorder.find? fun s => isReversedContent s.content) = some s ∧
        fault = .reversedSpan s.kind s.span.start s.span.stop := by
  have hfind := map_content_find? t
  rw [ofTree_eq_error_iff_find?]
  constructor
  · rintro ⟨n, hn, rfl⟩
    rw [hn, Option.map_some] at hfind
    obtain ⟨s, hs, hcontent⟩ := Option.map_eq_some_iff.1 hfind.symm
    obtain ⟨hkind, _, hspan⟩ := contents_eq hcontent
    exact ⟨s, hs, by rw [hkind, hspan]⟩
  · rintro ⟨s, hs, rfl⟩
    rw [hs, Option.map_some] at hfind
    obtain ⟨n, hn, hcontent⟩ := Option.map_eq_some_iff.1 hfind
    obtain ⟨hkind, _, hspan⟩ := contents_eq hcontent.symm
    exact ⟨n, hn, by rw [hkind, hspan]⟩

theorem exists_first_of_ofTree_eq_error {fault : Tree.Fault} (h : ofTree t = .error fault) :
    ∃ before s behind, t.preorder = before ++ s :: behind ∧
      (∀ u ∈ before, u.span.start ≤ u.span.stop) ∧ s.span.stop < s.span.start ∧
        fault = .reversedSpan s.kind s.span.start s.span.stop := by
  obtain ⟨s, hfind, hfault⟩ := ofTree_eq_error_iff.1 h
  obtain ⟨hs, before, behind, hsplit, hbefore⟩ := List.find?_eq_some_iff_append.1 hfind
  have hreversed : s.span.stop < s.span.start := of_decide_eq_true hs
  refine ⟨before, s, behind, hsplit, ?_, hreversed, hfault⟩
  intro u hu
  have hno : isReversedContent u.content = false := by simpa using hbefore u hu
  have hle : ¬ u.span.stop < u.span.start := of_decide_eq_false hno
  omega

theorem exists_error_iff :
    (∃ fault, ofTree t = .error fault) ↔ ∃ s ∈ t.preorder, s.span.stop < s.span.start := by
  constructor
  · rintro ⟨fault, hfault⟩
    obtain ⟨before, s, behind, hsplit, _, hreversed, _⟩ := exists_first_of_ofTree_eq_error hfault
    exact ⟨s, by simp [hsplit], hreversed⟩
  · rintro ⟨s, hs, hreversed⟩
    have hfound : (t.preorder.find? fun s => isReversedContent s.content).isSome = true :=
      List.find?_isSome.2 ⟨s, hs, decide_eq_true hreversed⟩
    obtain ⟨first, hfirst⟩ := Option.isSome_iff_exists.1 hfound
    exact ⟨_, ofTree_eq_error_iff.2 ⟨first, hfirst, rfl⟩⟩

end Refusal

section Rebuilding

/-- The tree below a number, put together from what its node and the nodes it leads to hold. Links
that do not lead to greater numbers are no links of a tree. -/
def treeAt? (a : Arena) (id : Nat) : Option Tree :=
  match _found : a.node? id with
  | none => none
  | some n =>
    (n.children.mapM fun c => if _hlt : id < c then a.treeAt? c else none).map
      (.node n.kind n.text n.span)
termination_by a.size - id
decreasing_by
  have hsize : id < a.size := (Array.getElem?_eq_some_iff.1 _found).1
  omega

theorem treeAt?_of_node? {a : Arena} {id : Nat} {n : Node} (h : a.node? id = some n) :
    a.treeAt? id =
      (n.children.mapM fun c => if id < c then a.treeAt? c else none).map
        (.node n.kind n.text n.span) := by
  rw [treeAt?]
  split
  · rename_i hnone
    rw [h] at hnone
    exact absurd hnone (Option.some_ne_none n)
  · rename_i found hfound
    obtain rfl : n = found := Option.some.inj (h.symm.trans hfound)
    rfl

mutual

theorem treeAt?_of_shownAt {a : Arena} {parent : Option Nat} {id : Nat} :
    {t : Tree} → t.ShownAt a parent id → a.treeAt? id = some t
  | .node kind text span children, h => by
    have hchildren := treesAt_of_allShownAt h.2 (Nat.lt_succ_self id)
    rw [treeAt?_of_node? h.1, hchildren]
    rfl

theorem treesAt_of_allShownAt {a : Arena} {parent id : Nat} :
    {ts : List Tree} → Tree.AllShownAt a parent id ts → parent < id →
      ((Tree.idsFrom id ts).mapM fun c => if parent < c then a.treeAt? c else none) = some ts
  | [], _, _ => rfl
  | t :: ts, h, hlt => by
    have hfirst := treeAt?_of_shownAt h.1
    have hrest := treesAt_of_allShownAt h.2 (Nat.lt_of_lt_of_le hlt (Nat.le_add_right id t.size))
    rw [Tree.idsFrom, List.mapM_cons, if_pos hlt, hfirst, hrest]
    rfl

end

end Rebuilding

section Links

variable {t : Tree} {a : Arena}

theorem parent?_of_mem_childrenOf (h : ofTree t = .ok a) {p c : Nat} (hc : c ∈ a.childrenOf p) :
    a.parent? c = some p := by
  obtain ⟨n, hn, hparent⟩ := node?_of_mem_childrenOf h hc
  rw [parent?, hn]
  exact hparent

theorem lt_of_mem_childrenOf (h : ofTree t = .ok a) {p c : Nat} (hc : c ∈ a.childrenOf p) :
    p < c := by
  obtain ⟨ts, hts, _⟩ := exists_childrenOf_eq h p
  rw [hts] at hc
  exact Tree.le_of_mem_idsFrom hc

theorem mem_childrenOf_iff (h : ofTree t = .ok a) {p c : Nat} :
    c ∈ a.childrenOf p ↔ a.parent? c = some p := by
  constructor
  · exact parent?_of_mem_childrenOf h
  · intro hparent
    obtain ⟨n, hn, _⟩ := Option.bind_eq_some_iff.1 hparent
    have hsize : c < a.size := (Array.getElem?_eq_some_iff.1 hn).1
    have hroot : c ≠ 0 := by
      rintro rfl
      rw [parent?_zero h] at hparent
      exact absurd hparent.symm (Option.some_ne_none p)
    obtain ⟨q, hq⟩ := exists_mem_childrenOf h hsize hroot
    have hsame : p = q := Option.some.inj (hparent.symm.trans (parent?_of_mem_childrenOf h hq))
    rw [hsame]
    exact hq

theorem exists_siblingIndex? (h : ofTree t = .ok a) {p c : Nat} (hc : c ∈ a.childrenOf p) :
    ∃ k, a.siblingIndex? c = some k ∧ (a.childrenOf p)[k]? = some c := by
  obtain ⟨k, hk⟩ := Option.isSome_iff_exists.1 (List.isSome_idxOf?.2 hc)
  refine ⟨k, ?_, ?_⟩
  · rw [siblingIndex?, parent?_of_mem_childrenOf h hc]
    exact hk
  · obtain ⟨hlt, heq, _⟩ := List.idxOf?_eq_some_iff.1 hk
    rw [List.getElem?_eq_getElem hlt, heq]

theorem ancestors_of_parent? (h : ofTree t = .ok a) {p c : Nat} (hparent : a.parent? c = some p) :
    p < c ∧ a.ancestors c = p :: a.ancestors p := by
  have hlt := lt_of_mem_childrenOf h ((mem_childrenOf_iff h).2 hparent)
  refine ⟨hlt, ?_⟩
  rw [ancestors, hparent]
  exact if_pos hlt

structure IsLineage (a : Arena) (ids : List Nat) : Prop where
  parents : ids.IsChain fun c p => a.parent? c = some p
  decreasing : ids.Pairwise (· > ·)
  last : ids.getLast? = some 0

theorem isLineage_ancestors (h : ofTree t = .ok a) {id : Nat} (hid : id < a.size) :
    a.IsLineage (id :: a.ancestors id) := by
  induction id using Nat.strongRecOn with
  | ind id ih =>
    by_cases hroot : id = 0
    · have hnil : a.ancestors id = [] := by
        rw [ancestors, hroot, parent?_zero h]
      rw [hnil, hroot]
      exact ⟨.singleton 0, List.pairwise_singleton _ 0, rfl⟩
    · obtain ⟨p, hp⟩ := exists_mem_childrenOf h hid hroot
      have hparent := parent?_of_mem_childrenOf h hp
      obtain ⟨hlt, hancestors⟩ := ancestors_of_parent? h hparent
      obtain ⟨hparents, hdecreasing, hlast⟩ := ih p hlt (Nat.lt_trans hlt hid)
      rw [hancestors]
      refine ⟨.cons_cons hparent hparents, .cons ?_ hdecreasing, ?_⟩
      · -- All ancestors are at most the parent, as the chain decreases from there.
        intro q hq
        rcases List.mem_cons.1 hq with rfl | hq
        · exact hlt
        · have hqp : q < p := List.rel_of_pairwise_cons hdecreasing hq
          exact Nat.lt_trans hqp hlt
      · rw [List.getLast?_cons_cons]
        exact hlast

structure WellLinked (a : Arena) : Prop where
  root : a.parent? 0 = none
  mem_childrenOf_iff : ∀ p c, c ∈ a.childrenOf p ↔ a.parent? c = some p
  increasing : ∀ p, (a.childrenOf p).Pairwise (· < ·)
  parent_lt : ∀ p, ∀ c ∈ a.childrenOf p, p < c
  once : ∀ id < a.size, id ≠ 0 → ∃ p k, a.parent? id = some p ∧ (a.childrenOf p).count id = 1 ∧
    a.siblingIndex? id = some k ∧ (a.childrenOf p)[k]? = some id
  lineage : ∀ id < a.size, a.IsLineage (id :: a.ancestors id)

theorem wellLinked_ofTree (h : ofTree t = .ok a) : a.WellLinked where
  root := parent?_zero h
  mem_childrenOf_iff := fun _ _ => mem_childrenOf_iff h
  increasing := childrenOf_pairwise_lt h
  parent_lt := fun _ _ => lt_of_mem_childrenOf h
  once := by
    intro id hid hroot
    obtain ⟨p, hp⟩ := exists_mem_childrenOf h hid hroot
    obtain ⟨k, hindex, hget⟩ := exists_siblingIndex? h hp
    have hcount := List.count_eq_one_of_mem (childrenOf_nodup h p) hp
    exact ⟨p, k, parent?_of_mem_childrenOf h hp, hcount, hindex, hget⟩
  lineage := fun _ hid => isLineage_ancestors h hid

end Links

/-- A tree is refused exactly for a reversed span, and then for the first one in pre-order. The arena
of any other tree has its nodes in pre-order, links them as the tree does and gives the tree back. -/
theorem ofTree_lossless (t : Tree) :
    ((∃ fault, ofTree t = .error fault) ↔ ∃ s ∈ t.preorder, s.span.stop < s.span.start) ∧
    (∀ fault, ofTree t = .error fault → ∃ before s behind, t.preorder = before ++ s :: behind ∧
      (∀ u ∈ before, u.span.start ≤ u.span.stop) ∧ s.span.stop < s.span.start ∧
        fault = .reversedSpan s.kind s.span.start s.span.stop) ∧
    ∀ a, ofTree t = .ok a → a.size = t.size ∧
      a.nodes.toList.map Node.content = t.preorder.map Tree.content ∧
        a.treeAt? 0 = some t ∧ a.WellLinked := by
  refine ⟨exists_error_iff, fun _ => exists_first_of_ofTree_eq_error, ?_⟩
  intro a h
  have hnodes : a.nodes.toList.map Node.content = t.preorder.map Tree.content := by
    rw [nodes_ofTree h, Tree.map_content_flatten]
  exact ⟨size_ofTree h, hnodes, treeAt?_of_shownAt (shownAt_ofTree h), wellLinked_ofTree h⟩

def nestedTree : Tree :=
  .node "list" "a,b" ⟨0, 3⟩ [.node "item" "a" ⟨0, 1⟩ [.leaf "NAME" "a" 0 1], .leaf "','" "," 1 2,
    .leaf "NAME" "b" 2 3]

def nestedArena : Arena where
  nodes := #[⟨"list", "a,b", ⟨0, 3⟩, [1, 3, 4], none⟩, ⟨"item", "a", ⟨0, 1⟩, [2], some 0⟩,
    ⟨"NAME", "a", ⟨0, 1⟩, [], some 1⟩, ⟨"','", ",", ⟨1, 2⟩, [], some 0⟩,
    ⟨"NAME", "b", ⟨2, 3⟩, [], some 0⟩]
  nonempty := by decide

def twistedTree : Tree :=
  .node "list" "ab" ⟨0, 2⟩ [.node "item" "a" ⟨0, 1⟩ [.leaf "NAME" "a" 1 0], .leaf "NAME" "b" 2 1]

theorem ofTree_lossless_nested :
    ofTree nestedTree = .ok nestedArena ∧ nestedArena.treeAt? 0 = some nestedTree ∧
      nestedArena.WellLinked ∧ ofTree twistedTree = .error (.reversedSpan "NAME" 1 0) ∧
        ∃ before s behind, twistedTree.preorder = before ++ s :: behind ∧
          (∀ u ∈ before, u.span.start ≤ u.span.stop) ∧ s.span.stop < s.span.start ∧
            Tree.Fault.reversedSpan "NAME" 1 0 = .reversedSpan s.kind s.span.start s.span.stop := by
  have hnested : ofTree nestedTree = .ok nestedArena := ofTree_eq_ok_iff.2 ⟨rfl, rfl⟩
  have htwisted : ofTree twistedTree = .error (.reversedSpan "NAME" 1 0) :=
    ofTree_eq_error_iff_find?.2 ⟨_, rfl, rfl⟩
  obtain ⟨_, _, hok⟩ := ofTree_lossless nestedTree
  obtain ⟨_, _, htree, hlinked⟩ := hok nestedArena hnested
  exact ⟨hnested, htree, hlinked, htwisted, (ofTree_lossless twistedTree).2.1 _ htwisted⟩

end Arena

end GrammarCompletion
