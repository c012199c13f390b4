import Mathlib.Data.List.Infix
import GrammarCompletion.Proofs.Completion.Closing

/-! The choices of leaves against each other. Whether completion answers does not depend on the
choice. The leaf that starts last is the first of all the leaves by start, so what follows from it
alone is a beginning of what follows from all of them; the first leaf in pre-order is only one of
them. Both go through two lists in which each entry keeps its first place, that of the nodes and that
of the symbols. -/

namespace GrammarCompletion

section FirstPlaces

variable {α β : Type} [BEq β] [LawfulBEq β] {l m : List α}

theorem isPrefix_eraseDups_flatMap (f : α → List β) (h : l <+: m) :
    (l.flatMap f).eraseDups <+: (m.flatMap f).eraseDups := by
  obtain ⟨behind, hbehind⟩ := h.flatMap f
  rw [← hbehind, List.eraseDups_append]
  exact List.prefix_append _ _

theorem subset_eraseDups_flatMap (f : α → List β) (h : l ⊆ m) :
    (l.flatMap f).eraseDups ⊆ (m.flatMap f).eraseDups := by
  intro b hb
  rw [List.mem_eraseDups, List.mem_flatMap] at hb ⊢
  obtain ⟨x, hx, hbx⟩ := hb
  exact ⟨x, h hx, hbx⟩

end FirstPlaces

namespace Arena

theorem rightmost_chosenLeaves_isPrefix (a : Arena) (cursor : Nat) :
    a.chosenLeaves cursor .rightmost <+: a.chosenLeaves cursor .all :=
  List.take_prefix 1 _

theorem first_chosenLeaves_subset (a : Arena) (cursor : Nat) :
    a.chosenLeaves cursor .first ⊆ a.chosenLeaves cursor .all := by
  intro leaf hleaf
  have hclosing : leaf ∈ a.closingLeaves cursor := List.mem_of_mem_take hleaf
  exact List.mem_mergeSort.2 hclosing

def chosenNodes (a : Arena) (cursor : Nat) (choice : LeafChoice) : List Nat :=
  ((a.chosenLeaves cursor choice).flatMap (a.closingChain cursor)).eraseDups

theorem rightmost_chosenNodes_isPrefix (a : Arena) (cursor : Nat) :
    a.chosenNodes cursor .rightmost <+: a.chosenNodes cursor .all :=
  isPrefix_eraseDups_flatMap _ (rightmost_chosenLeaves_isPrefix a cursor)

theorem first_chosenNodes_subset (a : Arena) (cursor : Nat) :
    a.chosenNodes cursor .first ⊆ a.chosenNodes cursor .all :=
  subset_eraseDups_flatMap _ (first_chosenLeaves_subset a cursor)

def itemArena : Arena where
  nodes := #[⟨"list", "a", ⟨0, 1⟩, [1, 3], none⟩, ⟨"item", "a", ⟨0, 1⟩, [2], some 0⟩,
    ⟨"ID", "a", ⟨0, 1⟩, [], some 1⟩, ⟨"sep", "", ⟨1, 1⟩, [], some 0⟩]
  nonempty := by decide

-- The nodes of the first leaf come in an order of their own.
example : [.all, .rightmost, .first].map (itemArena.chosenNodes 1) =
    [[3, 0, 2, 1], [3, 0], [2, 1, 0]] := by cbv

theorem exists_fault_of_not_hasLeafAt {a : Arena} {cursor : Nat} (h : ¬ a.HasLeafAt cursor) :
    ∃ fault, ∀ choice, a.closingNodes cursor choice = .error fault := by
  by_cases hrange : a.extent < cursor
  · exact ⟨_, fun choice => if_pos hrange⟩
  · have hnil := closingLeaves_eq_nil_iff.2 h
    exact ⟨_, fun choice => (if_neg hrange).trans (if_pos hnil)⟩

theorem closingNodes_fault_or_chosenNodes (a : Arena) (cursor : Nat) :
    (∃ fault, ∀ choice, a.closingNodes cursor choice = .error fault) ∨
      ∀ choice, a.closingNodes cursor choice = .ok (a.chosenNodes cursor choice) := by
  by_cases hleaf : a.HasLeafAt cursor
  · by_cases hrange : a.extent < cursor
    · exact .inl ⟨_, fun choice => if_pos hrange⟩
    · exact .inr (closingNodes_of_hasLeafAt (Nat.le_of_not_lt hrange) hleaf)
  · exact .inl (exists_fault_of_not_hasLeafAt hleaf)

end Arena

namespace Completer

/-- The three choices of leaves fail together, with the same fault. Otherwise the rightmost leaf gives
a beginning of what all leaves give, and the first leaf a part of it, among the nodes as among the
symbols. -/
theorem choices_within_all (g : LinkedGrammar) (a : Arena) (cursor : Nat) :
    (∃ fault, ∀ choice, context ⟨g, choice⟩ a cursor = .error fault ∧
      next ⟨g, choice⟩ a cursor = .error fault) ∨
    ∃ (nodes : LeafChoice → List Nat) (symbols : LeafChoice → List Symbol),
      (∀ choice, context ⟨g, choice⟩ a cursor = .ok (nodes choice) ∧
        next ⟨g, choice⟩ a cursor = .ok (symbols choice)) ∧
      (nodes .rightmost <+: nodes .all ∧ nodes .first ⊆ nodes .all) ∧
      symbols .rightmost <+: symbols .all ∧ symbols .first ⊆ symbols .all := by
  rcases a.closingNodes_fault_or_chosenNodes cursor with ⟨fault, hfault⟩ | hnodes
  · refine .inl ⟨fault, fun choice => ⟨hfault choice, ?_⟩⟩
    rw [next, context, hfault choice]
    rfl
  · have hbegins := a.rightmost_chosenNodes_isPrefix cursor
    have hsubset := a.first_chosenNodes_subset cursor
    refine .inr ⟨a.chosenNodes cursor, fun choice => g.candidates a (a.chosenNodes cursor choice),
      fun choice => ⟨hnodes choice, ?_⟩, ⟨hbegins, hsubset⟩,
      isPrefix_eraseDups_flatMap _ hbegins, subset_eraseDups_flatMap _ hsubset⟩
    rw [next, context, hnodes choice]
    rfl

end Completer

end GrammarCompletion
