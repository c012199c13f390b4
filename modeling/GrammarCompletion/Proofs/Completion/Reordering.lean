import GrammarCompletion.Proofs.Completion.Suggestion

/-! Completion and the order of a table. Two grammars that list the same rules in another order, each
with its alternatives in another order, mention the same symbols under the same names. What completion
answers is determined by these mentions up to order, although the links, the places and the walks of
the two grammars go through them differently. -/

namespace GrammarCompletion

structure Rule.Reorders (rule other : Rule) : Prop where
  name_eq : rule.name = other.name
  perm : rule.alternatives.Perm other.alternatives

namespace Grammar

def Reorders (g g' : Grammar) : Prop :=
  ∃ rules, List.Forall₂ Rule.Reorders g.rules rules ∧ rules.Perm g'.rules

namespace Reorders

variable {g g' : Grammar}

theorem exists_right (h : g.Reorders g') {rule : Rule} (hrule : rule ∈ g.rules) :
    ∃ other ∈ g'.rules, rule.Reorders other := by
  obtain ⟨rules, hrules, hperm⟩ := h
  obtain ⟨other, hother, hreorders⟩ := exists_mem_right_of_forall₂ hrules hrule
  exact ⟨other, hperm.mem_iff.1 hother, hreorders⟩

theorem exists_left (h : g.Reorders g') {other : Rule} (hother : other ∈ g'.rules) :
    ∃ rule ∈ g.rules, rule.Reorders other := by
  obtain ⟨rules, hrules, hperm⟩ := h
  exact exists_mem_left_of_forall₂ hrules (hperm.mem_iff.2 hother)

theorem mem_names_iff (h : g.Reorders g') {name : String} : name ∈ g.names ↔ name ∈ g'.names := by
  unfold names
  constructor
  · intro hname
    obtain ⟨rule, hrule, heq⟩ := List.mem_map.1 hname
    obtain ⟨other, hother, hreorders⟩ := h.exists_right hrule
    exact List.mem_map.2 ⟨other, hother, by rw [← hreorders.name_eq, heq]⟩
  · intro hname
    obtain ⟨other, hother, heq⟩ := List.mem_map.1 hname
    obtain ⟨rule, hrule, hreorders⟩ := h.exists_left hother
    exact List.mem_map.2 ⟨rule, hrule, by rw [hreorders.name_eq, heq]⟩

theorem produces_iff (h : g.Reorders g') {name : String} {alternative : Alternative} :
    Produces g.rules name alternative ↔ Produces g'.rules name alternative := by
  constructor
  · rintro ⟨rule, hrule, hname, halternative⟩
    obtain ⟨other, hother, hreorders⟩ := h.exists_right hrule
    exact ⟨other, hother, by rw [← hreorders.name_eq, hname], hreorders.perm.mem_iff.1 halternative⟩
  · rintro ⟨other, hother, hname, halternative⟩
    obtain ⟨rule, hrule, hreorders⟩ := h.exists_left hother
    exact ⟨rule, hrule, by rw [hreorders.name_eq, hname], hreorders.perm.mem_iff.2 halternative⟩

theorem sortOf?_eq (h : g.Reorders g') (symbol : Symbol) :
    g.sortOf? symbol = g'.sortOf? symbol := by
  unfold sortOf?
  exact if_congr h.mem_names_iff rfl rfl

theorem mentions_eq (h : g.Reorders g') : g.Mentions = g'.Mentions := by
  funext name symbol
  unfold Mentions
  simp only [h.produces_iff]

theorem isTerminalOf_eq (h : g.Reorders g') : g.IsTerminalOf = g'.IsTerminalOf := by
  funext symbol sort
  unfold IsTerminalOf
  rw [h.sortOf?_eq symbol]

theorem mem_terminals_walk_iff (h : g.Reorders g') {first t : Symbol} {sort : SymbolSort} :
    (t, sort) ∈ (g.walk first).terminals ↔ (t, sort) ∈ (g'.walk first).terminals := by
  rw [Grammar.mem_terminals_walk_iff, Grammar.mem_terminals_walk_iff, h.isTerminalOf_eq,
    Reaches, Reaches, h.mentions_eq]

theorem link_cases (h : g.Reorders g') :
    ((∃ linked, g.link = .ok linked) ∧ ∃ linked', g'.link = .ok linked') ∨
      (∃ name symbol, g.link = .error (.unknownReference name symbol)) ∧
        ∃ name symbol, g'.link = .error (.unknownReference name symbol) := by
  cases hlink : g.link with
  | ok linked =>
    cases hlink' : g'.link with
    | ok linked' => exact .inl ⟨⟨linked, rfl⟩, linked', rfl⟩
    | error fault =>
      obtain ⟨name, symbol, hmentions, hnone, _⟩ := link_eq_error hlink'
      rw [← h.mentions_eq] at hmentions
      obtain ⟨sort, hsort⟩ := exists_sortOf?_of_mentions hlink hmentions
      rw [h.sortOf?_eq, hnone] at hsort
      exact absurd hsort.symm (Option.some_ne_none _)
  | error fault =>
    obtain ⟨name, symbol, hmentions, hnone, hfault⟩ := link_eq_error hlink
    cases hlink' : g'.link with
    | ok linked' =>
      rw [h.mentions_eq] at hmentions
      obtain ⟨sort, hsort⟩ := exists_sortOf?_of_mentions hlink' hmentions
      rw [← h.sortOf?_eq, hnone] at hsort
      exact absurd hsort.symm (Option.some_ne_none _)
    | error fault' =>
      obtain ⟨name', symbol', _, _, hfault'⟩ := link_eq_error hlink'
      exact .inr ⟨⟨name, symbol, by rw [hfault]⟩, name', symbol', by rw [hfault']⟩

end Reorders

end Grammar

section Answers

variable {g g' : Grammar} {linked linked' : LinkedGrammar}

theorem mem_placements_of_reorders (h : g.Reorders g') (hlink : g.link = .ok linked)
    (hlink' : g'.link = .ok linked') {a : Arena} {id : Nat} {place : Placement} :
    place ∈ linked.placements a id ↔ place ∈ linked'.placements a id := by
  cases hparent : a.parent? id with
  | none =>
    rw [LinkedGrammar.placements_of_parent?_eq_none hparent,
      LinkedGrammar.placements_of_parent?_eq_none hparent]
  | some p =>
    obtain ⟨node, hnode, hp⟩ := Option.bind_eq_some_iff.1 hparent
    rw [LinkedGrammar.placements_eq_filter_suits hlink hnode hp,
      LinkedGrammar.placements_eq_filter_suits hlink' hnode hp, List.mem_filter, List.mem_filter,
      Grammar.mem_places_iff, Grammar.mem_places_iff, h.produces_iff]

theorem mem_nextSymbols_of_reorders (h : g.Reorders g') (hlink : g.link = .ok linked)
    (hlink' : g'.link = .ok linked') {a : Arena} {id : Nat} {s : Symbol} :
    s ∈ linked.nextSymbols a id ↔ s ∈ linked'.nextSymbols a id := by
  unfold LinkedGrammar.nextSymbols
  simp only [List.mem_eraseDups, List.mem_filterMap, mem_placements_of_reorders h hlink hlink']

theorem candidates_perm_of_reorders (h : g.Reorders g') (hlink : g.link = .ok linked)
    (hlink' : g'.link = .ok linked') (a : Arena) (ids : List Nat) :
    (linked.candidates a ids).Perm (linked'.candidates a ids) := by
  unfold LinkedGrammar.candidates
  rw [List.perm_ext_iff_of_nodup (nodup_eraseDups _) (nodup_eraseDups _)]
  intro s
  simp only [List.mem_eraseDups, List.mem_flatMap, mem_nextSymbols_of_reorders h hlink hlink']

theorem literals_perm_of_reorders (h : g.Reorders g') (s : Symbol) :
    (Expansion.ofWalk (g.walk s)).literals.Perm (Expansion.ofWalk (g'.walk s)).literals := by
  have hnodup : ∀ w, (Expansion.ofWalk w).literals.Nodup := fun w => nodup_eraseDups _
  rw [List.perm_ext_iff_of_nodup (hnodup _) (hnodup _)]
  intro text
  simp only [Expansion.mem_literals_ofWalk, h.mem_terminals_walk_iff]

theorem unlisted_perm_of_reorders (h : g.Reorders g') (s : Symbol) :
    (Expansion.ofWalk (g.walk s)).unlisted.Perm (Expansion.ofWalk (g'.walk s)).unlisted := by
  have hnodup : ∀ g : Grammar, (Expansion.ofWalk (g.walk s)).unlisted.Nodup := by
    intro g
    apply List.Nodup.of_map Unlisted.symbol
    exact (Expansion.unlisted_sublist_terminals _).nodup (g.nodup_terminals_walk s)
  rw [List.perm_ext_iff_of_nodup (hnodup g) (hnodup g')]
  rintro ⟨t, obstacle⟩
  simp only [Expansion.mem_unlisted_ofWalk, h.mem_terminals_walk_iff]

/-- The order of the rules of a grammar, and of the alternatives of a rule, decides only the order of
the answers: whether the grammar links, where completion is possible, which symbols may come next
there and what a symbol expands to. -/
theorem Grammar.Reorders.same_answers (h : g.Reorders g') :
    (((∃ linked, g.link = .ok linked) ∧ ∃ linked', g'.link = .ok linked') ∨
      (∃ name symbol, g.link = .error (.unknownReference name symbol)) ∧
        ∃ name symbol, g'.link = .error (.unknownReference name symbol)) ∧
    ∀ linked linked', g.link = .ok linked → g'.link = .ok linked' →
      (∀ (choice : LeafChoice) (a : Arena) (cursor : Nat),
        Completer.context ⟨linked, choice⟩ a cursor =
            Completer.context ⟨linked', choice⟩ a cursor ∧
          ((∃ fault, Completer.next ⟨linked, choice⟩ a cursor = .error fault ∧
              Completer.next ⟨linked', choice⟩ a cursor = .error fault) ∨
            ∃ symbols symbols', Completer.next ⟨linked, choice⟩ a cursor = .ok symbols ∧
              Completer.next ⟨linked', choice⟩ a cursor = .ok symbols' ∧
                symbols.Perm symbols')) ∧
      ∀ s, (linked.expand s = .error (.unknownSymbol s) ∧
          linked'.expand s = .error (.unknownSymbol s)) ∨
        ∃ e e', linked.expand s = .ok e ∧ linked'.expand s = .ok e' ∧
          e.literals.Perm e'.literals ∧ e.unlisted.Perm e'.unlisted := by
  refine ⟨h.link_cases, ?_⟩
  intro linked linked' hlink hlink'
  constructor
  · intro choice a cursor
    refine ⟨rfl, ?_⟩
    unfold Completer.next Completer.context
    cases a.closingNodes cursor choice with
    | error fault => exact .inl ⟨fault, rfl, rfl⟩
    | ok ids =>
      have hperm := candidates_perm_of_reorders h hlink hlink' a ids
      exact .inr ⟨_, _, rfl, rfl, hperm⟩
  · intro s
    have hgrammar := (link_eq_ok hlink).1
    have hgrammar' := (link_eq_ok hlink').1
    cases hsort : g.sortOf? s with
    | none =>
      have hnone : linked.grammar.sortOf? s = none := by rw [hgrammar, hsort]
      have hnone' : linked'.grammar.sortOf? s = none := by
        rw [hgrammar', ← h.sortOf?_eq, hsort]
      exact .inl ⟨LinkedGrammar.expand_of_sortOf?_eq_none hnone,
        LinkedGrammar.expand_of_sortOf?_eq_none hnone'⟩
    | some sort =>
      have hsome : linked.grammar.sortOf? s = some sort := by rw [hgrammar, hsort]
      have hsome' : linked'.grammar.sortOf? s = some sort := by
        rw [hgrammar', ← h.sortOf?_eq, hsort]
      refine .inr ⟨_, _, LinkedGrammar.expand_of_sortOf? hsome,
        LinkedGrammar.expand_of_sortOf? hsome', ?_, ?_⟩
      · rw [hgrammar, hgrammar']
        exact literals_perm_of_reorders h s
      · rw [hgrammar, hgrammar']
        exact unlisted_perm_of_reorders h s

end Answers

namespace LinkedGrammar

def callGrammar : Grammar where
  rules := [⟨"call", [["NAME", "'('", "args", "')'"], ["NAME"]]⟩,
    ⟨"args", [["call"], ["call", "','", "args"], []]⟩]
  distinct := by decide

def turnedGrammar : Grammar where
  rules := [⟨"args", [[], ["call", "','", "args"], ["call"]]⟩,
    ⟨"call", [["NAME"], ["NAME", "'('", "args", "')'"]]⟩]
  distinct := by decide

def callLinked : LinkedGrammar :=
  ⟨callGrammar, [("NAME", ["call"]), ("'('", ["call"]), ("args", ["call"]), ("')'", ["call"]),
    ("call", ["args"]), ("','", ["args"])]⟩

def turnedLinked : LinkedGrammar :=
  ⟨turnedGrammar, [("call", ["args"]), ("','", ["args"]), ("NAME", ["call"]), ("'('", ["call"]),
    ("args", ["call"]), ("')'", ["call"])]⟩

theorem reorders_call : callGrammar.Reorders turnedGrammar := by
  have hcall : Rule.Reorders ⟨"call", [["NAME", "'('", "args", "')'"], ["NAME"]]⟩
      ⟨"call", [["NAME"], ["NAME", "'('", "args", "')'"]]⟩ := ⟨rfl, .swap _ _ _⟩
  have hargs : Rule.Reorders ⟨"args", [["call"], ["call", "','", "args"], []]⟩
      ⟨"args", [[], ["call", "','", "args"], ["call"]]⟩ := ⟨rfl, (List.reverse_perm _).symm⟩
  exact ⟨_, .cons hcall (.cons hargs .nil), .swap _ _ _⟩

theorem same_answers_call :
    callGrammar.Reorders turnedGrammar ∧ callGrammar.link = .ok callLinked ∧
      turnedGrammar.link = .ok turnedLinked ∧
        ∃ e e', callLinked.expand "args" = .ok e ∧ turnedLinked.expand "args" = .ok e' ∧
          e.literals.Perm e'.literals ∧ e.unlisted.Perm e'.unlisted := by
  have hlink : callGrammar.link = .ok callLinked := by rfl
  have hlink' : turnedGrammar.link = .ok turnedLinked := by rfl
  have hsort : callLinked.grammar.sortOf? "args" = some .nonterminal := by decide
  have hexpand := ((reorders_call.same_answers).2 _ _ hlink hlink').2 "args"
  refine ⟨reorders_call, hlink, hlink', hexpand.resolve_left ?_⟩
  rintro ⟨herror, _⟩
  rw [expand_of_sortOf? hsort] at herror
  cases herror

end LinkedGrammar

end GrammarCompletion
