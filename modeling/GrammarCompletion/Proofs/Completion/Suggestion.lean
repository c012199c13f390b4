import GrammarCompletion.Completion.Suggestion
import GrammarCompletion.Proofs.Completion.Expansion
import GrammarCompletion.Proofs.Completion.Placement

/-! When completion answers. Every symbol that may come next is mentioned by some rule, so in a
linked grammar it has a meaning and its expansion cannot fail; what is left to fail is the cursor,
which may be out of range or not at the end of a leaf. -/

namespace GrammarCompletion

theorem mapM_eq_ok_map {ε α β : Type} {f : α → Except ε β} {value : α → β} {l : List α}
    (h : ∀ x ∈ l, f x = .ok (value x)) : l.mapM f = .ok (l.map value) := by
  induction l with
  | nil => rfl
  | cons x l ih =>
    have hrest := ih fun y hy => h y (List.mem_cons_of_mem _ hy)
    rw [List.mapM_cons, h x List.mem_cons_self, hrest]
    rfl

namespace Arena

variable {a : Arena} {cursor : Nat}

def HasLeafAt (a : Arena) (cursor : Nat) : Prop :=
  ∃ id n, a.node? id = some n ∧ n.children = [] ∧ n.span.stop = cursor

theorem extent_of_node?_zero {root : Node} (h : a.node? 0 = some root) :
    a.extent = root.span.stop := by
  obtain ⟨_, hroot⟩ := Array.getElem?_eq_some_iff.1 h
  rw [extent, hroot]

theorem mem_closingLeaves_iff {id : Nat} :
    id ∈ a.closingLeaves cursor ↔
      ∃ n, a.node? id = some n ∧ n.children = [] ∧ n.span.stop = cursor := by
  unfold closingLeaves endsAt
  rw [List.mem_filter, List.mem_range]
  cases hnode : a.node? id with
  | none => simp
  | some n =>
    have hid : id < a.size := (Array.getElem?_eq_some_iff.1 hnode).1
    simp [hid, Node.isLeaf]

theorem closingLeaves_eq_nil_iff : a.closingLeaves cursor = [] ↔ ¬ a.HasLeafAt cursor := by
  simp only [List.eq_nil_iff_forall_not_mem, mem_closingLeaves_iff, HasLeafAt, not_exists]

theorem closingNodes_cases (a : Arena) (cursor : Nat) (choice : LeafChoice) :
    a.extent < cursor ∧
        a.closingNodes cursor choice = .error (.cursorOutOfRange cursor a.extent) ∨
      cursor ≤ a.extent ∧ ¬ a.HasLeafAt cursor ∧
        a.closingNodes cursor choice = .error (.noLeafAtCursor cursor) ∨
      cursor ≤ a.extent ∧ a.HasLeafAt cursor ∧ ∃ ids, a.closingNodes cursor choice = .ok ids := by
  unfold closingNodes
  by_cases hrange : a.extent < cursor
  · exact .inl ⟨hrange, if_pos hrange⟩
  · rw [if_neg hrange]
    have hle := Nat.le_of_not_lt hrange
    by_cases hleaf : a.HasLeafAt cursor
    · rw [if_neg fun hnil => closingLeaves_eq_nil_iff.1 hnil hleaf]
      exact .inr (.inr ⟨hle, hleaf, _, rfl⟩)
    · exact .inr (.inl ⟨hle, hleaf, if_pos (closingLeaves_eq_nil_iff.2 hleaf)⟩)

end Arena

namespace LinkedGrammar

variable {g : Grammar} {linked : LinkedGrammar} {a : Arena}

theorem exists_mentions_of_mem_candidates (hlink : g.link = .ok linked) {ids : List Nat}
    {s : Symbol} (h : s ∈ linked.candidates a ids) : ∃ name, g.Mentions name s := by
  unfold candidates nextSymbols at h
  rw [List.mem_eraseDups] at h
  obtain ⟨id, _, hnext⟩ := List.mem_flatMap.1 h
  obtain ⟨place, hplace, hs⟩ := List.mem_filterMap.1 (List.mem_eraseDups.1 hnext)
  have hproduces := produces_of_mem_placements hlink hplace
  exact ⟨place.rule, place.alternative, hproduces, List.mem_of_getElem? hs⟩

theorem expand_of_mentions (hlink : g.link = .ok linked) {name : String} {s : Symbol}
    (h : g.Mentions name s) : linked.expand s = .ok (.ofWalk (g.walk s)) := by
  obtain ⟨sort, hsort⟩ := Grammar.exists_sortOf?_of_mentions hlink h
  obtain rfl := (Grammar.link_eq_ok hlink).1
  exact expand_of_sortOf? hsort

end LinkedGrammar

namespace Completer

variable {g : Grammar} {c : Completer} {a : Arena} {cursor : Nat}

theorem suggest_of_context_error {fault : Completion.Fault}
    (h : c.context a cursor = .error fault) : c.suggest a cursor = .error fault := by
  rw [suggest, next, h]
  rfl

theorem suggest_of_context (hlink : g.link = .ok c.grammar) {ids : List Nat}
    (h : c.context a cursor = .ok ids) :
    c.next a cursor = .ok (c.grammar.candidates a ids) ∧ c.suggest a cursor =
      .ok ((c.grammar.candidates a ids).map fun s => ⟨s, .ofWalk (g.walk s)⟩) := by
  have hnext : c.next a cursor = .ok (c.grammar.candidates a ids) := by
    rw [next, h]
    rfl
  refine ⟨hnext, ?_⟩
  rw [suggest, hnext]
  apply mapM_eq_ok_map
  intro s hs
  obtain ⟨name, hmentions⟩ := LinkedGrammar.exists_mentions_of_mem_candidates hlink hs
  rw [LinkedGrammar.expand_of_mentions hlink hmentions]
  rfl

/-- Completion with a linked grammar fails for reasons of the cursor only: it is behind the end of
the root, or else at the end of no leaf. Its suggestions are the symbols that may come next, each
once and mentioned by a rule, with what they expand to. -/
theorem suggest_fails_only_at_cursor (hlink : g.link = .ok c.grammar) {root : Node}
    (hroot : a.node? 0 = some root) (cursor : Nat) :
    (c.suggest a cursor = .error (.cursorOutOfRange cursor root.span.stop) ↔
      root.span.stop < cursor) ∧
    (c.suggest a cursor = .error (.noLeafAtCursor cursor) ↔
      cursor ≤ root.span.stop ∧ ¬ a.HasLeafAt cursor) ∧
    ((∃ suggestions, c.suggest a cursor = .ok suggestions) ↔
      cursor ≤ root.span.stop ∧ a.HasLeafAt cursor) ∧
    (∀ fault, c.suggest a cursor = .error fault →
      fault = .cursorOutOfRange cursor root.span.stop ∨ fault = .noLeafAtCursor cursor) ∧
    ∀ suggestions, c.suggest a cursor = .ok suggestions →
      c.next a cursor = .ok (suggestions.map Suggestion.symbol) ∧
      (suggestions.map Suggestion.symbol).Nodup ∧
      ∀ suggestion ∈ suggestions, (∃ name, g.Mentions name suggestion.symbol) ∧
        c.grammar.expand suggestion.symbol = .ok suggestion.expansion := by
  rw [← Arena.extent_of_node?_zero hroot]
  rcases a.closingNodes_cases cursor c.choice with
    ⟨hrange, hcontext⟩ | ⟨hrange, hleaf, hcontext⟩ | ⟨hrange, hleaf, ids, hcontext⟩
  · have hout : ¬ cursor ≤ a.extent := Nat.not_le.2 hrange
    rw [suggest_of_context_error hcontext]
    simp [hrange, hout]
  · rw [suggest_of_context_error hcontext]
    simp [hrange, hleaf]
  · obtain ⟨hnext, hsuggest⟩ := suggest_of_context hlink hcontext
    have hsymbols : ((c.grammar.candidates a ids).map fun s =>
        (⟨s, .ofWalk (g.walk s)⟩ : Suggestion)).map Suggestion.symbol =
          c.grammar.candidates a ids := by
      rw [List.map_map]
      exact List.map_id _
    rw [hsuggest]
    refine ⟨by simp [hrange], by simp [hleaf], by simp [hrange, hleaf], by simp, ?_⟩
    intro suggestions heq
    obtain rfl := Except.ok.inj heq
    rw [hsymbols]
    refine ⟨hnext, nodup_eraseDups _, ?_⟩
    intro suggestion hmem
    obtain ⟨s, hs, rfl⟩ := List.mem_map.1 hmem
    obtain ⟨name, hmentions⟩ := LinkedGrammar.exists_mentions_of_mem_candidates hlink hs
    exact ⟨⟨name, hmentions⟩, LinkedGrammar.expand_of_mentions hlink hmentions⟩

def bindingGrammar : Grammar where
  rules := [⟨"binding", [["'let'", "value"]]⟩, ⟨"value", [["'\\q'"], ["NUMBER"]]⟩]
  distinct := by decide

def bindingLinked : LinkedGrammar :=
  ⟨bindingGrammar, [("'let'", ["binding"]), ("value", ["binding"]), ("'\\q'", ["value"]),
    ("NUMBER", ["value"])]⟩

def bindingTree : Tree := .node "binding" "let" ⟨0, 3⟩ [.leaf "'let'" "let" 0 3]

def bindingRoot : Node := ⟨"binding", "let", ⟨0, 3⟩, [1], none⟩

def bindingArena : Arena where
  nodes := #[bindingRoot, ⟨"'let'", "let", ⟨0, 3⟩, [], some 0⟩]
  nonempty := by decide

def bindingCompleter : Completer where
  grammar := bindingLinked

theorem suggest_binding :
    bindingGrammar.link = .ok bindingCompleter.grammar ∧
      Arena.ofTree bindingTree = .ok bindingArena ∧ bindingArena.node? 0 = some bindingRoot ∧
        ∃ suggestions, bindingCompleter.suggest bindingArena 3 = .ok suggestions ∧
          suggestions.map Suggestion.symbol = ["value"] ∧
            ∀ suggestion ∈ suggestions,
              bindingLinked.expand suggestion.symbol = .ok suggestion.expansion := by
  have hlink : bindingGrammar.link = .ok bindingCompleter.grammar := by rfl
  have hroot : bindingArena.node? 0 = some bindingRoot := by rfl
  have hnext : bindingCompleter.next bindingArena 3 = .ok ["value"] := by decide +kernel
  have hleaf : bindingArena.HasLeafAt 3 := ⟨1, _, rfl, rfl, rfl⟩
  obtain ⟨_, _, hok, _, hsuggestions⟩ := suggest_fails_only_at_cursor hlink hroot 3
  obtain ⟨suggestions, hsuggest⟩ := hok.2 ⟨by decide, hleaf⟩
  obtain ⟨hsymbols, _, hexpand⟩ := hsuggestions suggestions hsuggest
  have hvalue : suggestions.map Suggestion.symbol = ["value"] :=
    (Except.ok.inj (hnext.symm.trans hsymbols)).symm
  exact ⟨hlink, Arena.ofTree_eq_ok_iff.2 ⟨rfl, rfl⟩, hroot, suggestions, hsuggest, hvalue,
    fun suggestion hmem => (hexpand suggestion hmem).2⟩

end Completer

end GrammarCompletion
