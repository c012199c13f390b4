import GrammarCompletion.Proofs.Tree.Numbering

/-! How the nodes of a tree are linked once they are numbered. An arena shows a tree at a number
if the node there and the nodes it leads to are those of the tree; the arena of a tree shows a tree
at every number it has. -/

namespace GrammarCompletion

theorem Arena.childrenOf_of_node? {a : Arena} {id : Nat} {n : Node} (h : a.node? id = some n) :
    a.childrenOf id = n.children := by
  rw [childrenOf, h]
  rfl

namespace Tree

theorem size_pos (t : Tree) : 0 < t.size := by
  cases t
  rw [size]
  omega

theorem le_of_mem_idsFrom {id c : Nat} {ts : List Tree} (h : c ∈ idsFrom id ts) : id ≤ c := by
  induction ts generalizing id with
  | nil => simp [idsFrom] at h
  | cons t ts ih =>
    rw [idsFrom, List.mem_cons] at h
    rcases h with rfl | h
    · exact Nat.le_refl c
    · have hle := ih h
      omega

theorem idsFrom_pairwise_lt (id : Nat) (ts : List Tree) :
    (idsFrom id ts).Pairwise (· < ·) := by
  induction ts generalizing id with
  | nil => exact .nil
  | cons t ts ih =>
    refine .cons ?_ (ih (id + t.size))
    intro c hc
    have hle := le_of_mem_idsFrom hc
    have hpos := t.size_pos
    omega

mutual

theorem length_flatten (parent : Option Nat) (id : Nat) :
    (t : Tree) → (t.flatten parent id).length = t.size
  | node kind text span children => by
    rw [flatten, size, List.length_cons, length_flattenAll id (id + 1) children, Nat.add_comm]

theorem length_flattenAll (parent id : Nat) :
    (ts : List Tree) → (flattenAll parent id ts).length = sizeAll ts
  | [] => rfl
  | t :: ts => by
    rw [flattenAll, sizeAll, List.length_append, length_flatten (some parent) id t,
      length_flattenAll parent (id + t.size) ts]

end

mutual

/-- The arena shows the tree at the number, as a child of the parent. -/
def ShownAt (a : Arena) (parent : Option Nat) (id : Nat) : Tree → Prop
  | node kind text span children =>
    a.node? id = some ⟨kind, text, span, idsFrom (id + 1) children, parent⟩ ∧
      AllShownAt a id (id + 1) children

def AllShownAt (a : Arena) (parent id : Nat) : List Tree → Prop
  | [] => True
  | t :: ts => t.ShownAt a (some parent) id ∧ AllShownAt a parent (id + t.size) ts

end

def RunsFrom (a : Arena) (id : Nat) (nodes : List Node) : Prop :=
  ∀ i n, nodes[i]? = some n → a.node? (id + i) = some n

theorem RunsFrom.append {a : Arena} {id : Nat} {first second : List Node}
    (h : RunsFrom a id (first ++ second)) :
    RunsFrom a id first ∧ RunsFrom a (id + first.length) second := by
  constructor
  · intro i n hn
    apply h
    rw [List.getElem?_append_left (List.getElem?_eq_some_iff.1 hn).1]
    exact hn
  · intro i n hn
    rw [Nat.add_assoc]
    apply h
    rw [List.getElem?_append_right (Nat.le_add_right _ _), Nat.add_sub_cancel_left]
    exact hn

mutual

theorem shownAt_of_runsFrom {a : Arena} (parent : Option Nat) (id : Nat) :
    (t : Tree) → RunsFrom a id (t.flatten parent id) → t.ShownAt a parent id
  | node kind text span children, h => by
    rw [flatten, ← List.singleton_append] at h
    obtain ⟨hroot, hchildren⟩ := h.append
    exact ⟨hroot 0 _ rfl, allShownAt_of_runsFrom id (id + 1) children hchildren⟩

theorem allShownAt_of_runsFrom {a : Arena} (parent id : Nat) :
    (ts : List Tree) → RunsFrom a id (flattenAll parent id ts) → AllShownAt a parent id ts
  | [], _ => trivial
  | t :: ts, h => by
    rw [flattenAll] at h
    obtain ⟨hfirst, hrest⟩ := h.append
    rw [length_flatten] at hrest
    exact ⟨shownAt_of_runsFrom (some parent) id t hfirst,
      allShownAt_of_runsFrom parent (id + t.size) ts hrest⟩

end

mutual

/-- Where a tree is shown, a tree is shown at each of its numbers. It has every property of the first
that passes on to children. -/
theorem ShownAt.exists_shownAt {a : Arena} {P : Tree → Prop}
    (hP : ∀ t, P t → ∀ c ∈ t.children, P c) {parent : Option Nat} {id : Nat} :
    {t : Tree} → t.ShownAt a parent id → P t → (j : Nat) → id ≤ j → j < id + t.size →
      ∃ parent' s, P s ∧ ShownAt a parent' j s
  | node kind text span children, h, ht, j, hle, hlt => by
    by_cases hj : j = id
    · exact ⟨parent, _, ht, hj ▸ h⟩
    · rw [size] at hlt
      exact AllShownAt.exists_shownAt hP h.2 (hP _ ht) j (by omega) (by omega)

theorem AllShownAt.exists_shownAt {a : Arena} {P : Tree → Prop}
    (hP : ∀ t, P t → ∀ c ∈ t.children, P c) {parent id : Nat} :
    {ts : List Tree} → AllShownAt a parent id ts → (∀ t ∈ ts, P t) → (j : Nat) → id ≤ j →
      j < id + sizeAll ts → ∃ parent' s, P s ∧ ShownAt a parent' j s
  | [], _, _, j, hle, hlt => by
    rw [sizeAll] at hlt
    omega
  | t :: ts, h, hts, j, hle, hlt => by
    rw [sizeAll] at hlt
    rw [List.forall_mem_cons] at hts
    by_cases hj : j < id + t.size
    · exact ShownAt.exists_shownAt hP h.1 hts.1 j hle hj
    · exact AllShownAt.exists_shownAt hP h.2 hts.2 j (by omega) (by omega)

end

theorem AllShownAt.node?_of_mem {a : Arena} {parent id c : Nat} {ts : List Tree}
    (h : AllShownAt a parent id ts) (hc : c ∈ idsFrom id ts) :
    ∃ n, a.node? c = some n ∧ n.parent = some parent := by
  induction ts generalizing id with
  | nil => simp [idsFrom] at hc
  | cons t ts ih =>
    rw [idsFrom, List.mem_cons] at hc
    rcases hc with rfl | hc
    · cases t with
      | node kind text span children => exact ⟨_, h.1.1, rfl⟩
    · exact ih h.2 hc

mutual

theorem ShownAt.exists_mem_childrenOf {a : Arena} {parent : Option Nat} {id : Nat} :
    {t : Tree} → t.ShownAt a parent id → (j : Nat) → id < j → j < id + t.size →
      ∃ p, j ∈ a.childrenOf p
  | node kind text span children, h, j, hlt, hsize => by
    have hchildren : a.childrenOf id = idsFrom (id + 1) children := Arena.childrenOf_of_node? h.1
    have hsubset : idsFrom (id + 1) children ⊆ a.childrenOf id := by
      rw [hchildren]
      exact List.Subset.refl _
    rw [size] at hsize
    exact AllShownAt.exists_mem_childrenOf h.2 hsubset j hlt (by omega)

theorem AllShownAt.exists_mem_childrenOf {a : Arena} {parent id : Nat} :
    {ts : List Tree} → AllShownAt a parent id ts → idsFrom id ts ⊆ a.childrenOf parent →
      (j : Nat) → id ≤ j → j < id + sizeAll ts → ∃ p, j ∈ a.childrenOf p
  | [], _, _, j, hle, hlt => by
    rw [sizeAll] at hlt
    omega
  | t :: ts, h, hsubset, j, hle, hlt => by
    rw [sizeAll] at hlt
    rw [idsFrom, List.cons_subset] at hsubset
    by_cases hid : j = id
    · exact ⟨parent, hid ▸ hsubset.1⟩
    · by_cases hj : j < id + t.size
      · exact ShownAt.exists_mem_childrenOf h.1 j (by omega) hj
      · exact AllShownAt.exists_mem_childrenOf h.2 hsubset.2 j (by omega) (by omega)

end

end Tree

namespace Arena

variable {t : Tree} {a : Arena}

theorem size_ofTree (h : ofTree t = .ok a) : a.size = t.size := by
  rw [size, ← Array.length_toList, nodes_ofTree h, Tree.length_flatten]

theorem shownAt_ofTree (h : ofTree t = .ok a) : t.ShownAt a none 0 := by
  apply Tree.shownAt_of_runsFrom
  intro i m hm
  rw [← nodes_ofTree h] at hm
  simpa [node?] using hm

theorem exists_shownAt_of_forall (h : ofTree t = .ok a) {P : Tree → Prop} (ht : P t)
    (hP : ∀ s, P s → ∀ c ∈ s.children, P c) {id : Nat} {n : Node} (hid : a.node? id = some n) :
    ∃ parent s, P s ∧ Tree.ShownAt a parent id s := by
  have hlt : id < a.size := (Array.getElem?_eq_some_iff.1 hid).1
  rw [size_ofTree h] at hlt
  exact (shownAt_ofTree h).exists_shownAt hP ht id (Nat.zero_le id) (by omega)

theorem exists_shownAt (h : ofTree t = .ok a) {id : Nat} {n : Node} (hid : a.node? id = some n) :
    ∃ parent s, Tree.ShownAt a parent id s := by
  obtain ⟨parent, s, _, hs⟩ :=
    exists_shownAt_of_forall h (P := fun _ => True) trivial (fun _ _ _ _ => trivial) hid
  exact ⟨parent, s, hs⟩

theorem parent?_zero (h : ofTree t = .ok a) : a.parent? 0 = none := by
  have hshown := shownAt_ofTree h
  cases t with
  | node kind text span children =>
    rw [parent?, hshown.1]
    rfl

theorem exists_mem_childrenOf (h : ofTree t = .ok a) {id : Nat} (hid : id < a.size)
    (hroot : id ≠ 0) : ∃ p, id ∈ a.childrenOf p := by
  rw [size_ofTree h] at hid
  exact (shownAt_ofTree h).exists_mem_childrenOf id (by omega) (by omega)

theorem exists_childrenOf_eq (h : ofTree t = .ok a) (p : Nat) :
    ∃ ts, a.childrenOf p = Tree.idsFrom (p + 1) ts ∧ Tree.AllShownAt a p (p + 1) ts := by
  cases hp : a.node? p with
  | none =>
    have hnil : a.childrenOf p = [] := by
      rw [childrenOf, hp]
      rfl
    exact ⟨[], hnil, trivial⟩
  | some n =>
    obtain ⟨parent, s, hs⟩ := exists_shownAt h hp
    cases s with
    | node kind text span children =>
      exact ⟨children, childrenOf_of_node? hs.1, hs.2⟩

theorem childrenOf_pairwise_lt (h : ofTree t = .ok a) (p : Nat) :
    (a.childrenOf p).Pairwise (· < ·) := by
  obtain ⟨ts, hts, _⟩ := exists_childrenOf_eq h p
  rw [hts]
  exact Tree.idsFrom_pairwise_lt (p + 1) ts

theorem childrenOf_nodup (h : ofTree t = .ok a) (p : Nat) : (a.childrenOf p).Nodup :=
  (childrenOf_pairwise_lt h p).imp Nat.ne_of_lt

theorem node?_of_mem_childrenOf (h : ofTree t = .ok a) {p c : Nat} (hc : c ∈ a.childrenOf p) :
    ∃ n, a.node? c = some n ∧ n.parent = some p := by
  obtain ⟨ts, hts, hshown⟩ := exists_childrenOf_eq h p
  rw [hts] at hc
  exact hshown.node?_of_mem hc

theorem exists_kind?_of_mem_childrenOf (h : ofTree t = .ok a) {p c : Nat}
    (hc : c ∈ a.childrenOf p) : ∃ kind, a.kind? c = some kind := by
  obtain ⟨n, hn, _⟩ := node?_of_mem_childrenOf h hc
  exact ⟨n.kind, by rw [kind?, hn, Option.map_some]⟩

theorem exists_kinds (h : ofTree t = .ok a) (p : Nat) :
    ∃ kinds : List String, (a.childrenOf p).map a.kind? = kinds.map some := by
  refine ⟨(a.childrenOf p).map fun c => (a.kind? c).getD "", ?_⟩
  rw [List.map_map]
  apply List.map_congr_left
  intro c hc
  obtain ⟨kind, hkind⟩ := exists_kind?_of_mem_childrenOf h hc
  simp [hkind]

end Arena

end GrammarCompletion
