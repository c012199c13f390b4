import GrammarCompletion.Proofs.Grammar.Links

/-! Which symbols a symbol leads to: those that its rule mentions, those that their rules mention,
and so on. What a symbol derives holds only symbols that it leads to. Where every rule on the way
derives a sentence, each terminal that the symbol leads to stands in a sentence it derives. -/

namespace GrammarCompletion.Grammar

variable (g : Grammar)

abbrev Reaches : Symbol → Symbol → Prop := Relation.ReflTransGen g.Mentions

def IsTerminalOf (symbol : Symbol) (sort : SymbolSort) : Prop :=
  g.sortOf? symbol = some sort ∧ sort.isTerminal = true

def IsSentence (word : List Symbol) : Prop := ∀ symbol ∈ word, ∃ sort, g.IsTerminalOf symbol sort

def IsProductive (symbol : Symbol) : Prop :=
  ∃ word, Derives g.rules [symbol] word ∧ g.IsSentence word

variable {g : Grammar}

theorem isTerminalOf_iff {symbol : Symbol} {sort : SymbolSort} :
    g.IsTerminalOf symbol sort ↔ symbol ∉ g.names ∧ terminalSort? symbol = some sort := by
  unfold IsTerminalOf sortOf?
  by_cases hname : symbol ∈ g.names
  · rw [if_pos hname]
    constructor
    · rintro ⟨hsort, hterminal⟩
      obtain rfl := Option.some.inj hsort
      simp [SymbolSort.isTerminal] at hterminal
    · rintro ⟨hno, _⟩
      exact absurd hname hno
  · rw [if_neg hname]
    constructor
    · rintro ⟨hsort, _⟩
      exact ⟨hname, hsort⟩
    · rintro ⟨_, hsort⟩
      exact ⟨hsort, isTerminal_of_terminalSort? hsort⟩

theorem mem_names_or_isTerminalOf {symbol : Symbol} {sort : SymbolSort}
    (h : g.sortOf? symbol = some sort) : symbol ∈ g.names ∨ g.IsTerminalOf symbol sort := by
  by_cases hname : symbol ∈ g.names
  · exact .inl hname
  · rw [sortOf?, if_neg hname] at h
    exact .inr (isTerminalOf_iff.2 ⟨hname, h⟩)

theorem exists_reaches_of_rewrites {u v : List Symbol} (h : Rewrites g.rules u v) {symbol : Symbol}
    (hmem : symbol ∈ v) : ∃ first ∈ u, g.Reaches first symbol := by
  obtain ⟨front, back, hproduces⟩ := h
  rename_i replaced alternative
  rw [List.append_assoc, List.mem_append, List.mem_append] at hmem
  rcases hmem with hfront | halternative | hback
  · exact ⟨symbol, by simp [hfront], .refl⟩
  · exact ⟨replaced, by simp, .single ⟨alternative, hproduces, halternative⟩⟩
  · exact ⟨symbol, by simp [hback], .refl⟩

theorem exists_reaches_of_derives {u v : List Symbol} (h : Derives g.rules u v) {symbol : Symbol}
    (hmem : symbol ∈ v) : ∃ first ∈ u, g.Reaches first symbol := by
  induction h generalizing symbol with
  | refl => exact ⟨symbol, hmem, .refl⟩
  | tail _ hstep ih =>
    obtain ⟨middle, hmiddle, hsecond⟩ := exists_reaches_of_rewrites hstep hmem
    obtain ⟨first, hu, hfirst⟩ := ih hmiddle
    exact ⟨first, hu, hfirst.trans hsecond⟩

theorem IsTerminalOf.isSentence {symbol : Symbol} {sort : SymbolSort}
    (h : g.IsTerminalOf symbol sort) : g.IsSentence [symbol] := by
  intro other hother
  rw [List.mem_singleton.1 hother]
  exact ⟨sort, h⟩

theorem IsTerminalOf.isProductive {symbol : Symbol} {sort : SymbolSort}
    (h : g.IsTerminalOf symbol sort) : g.IsProductive symbol := ⟨[symbol], .refl, h.isSentence⟩

theorem IsSentence.append {u v : List Symbol} (hu : g.IsSentence u) (hv : g.IsSentence v) :
    g.IsSentence (u ++ v) := by
  intro symbol hmem
  rcases List.mem_append.1 hmem with hmem | hmem
  · exact hu symbol hmem
  · exact hv symbol hmem

theorem exists_sentence_of_isProductive {u : List Symbol}
    (h : ∀ symbol ∈ u, g.IsProductive symbol) :
    ∃ word, Derives g.rules u word ∧ g.IsSentence word := by
  induction u with
  | nil => exact ⟨[], .refl, by simp [IsSentence]⟩
  | cons symbol u ih =>
    obtain ⟨first, hfirst, hsentence⟩ := h symbol List.mem_cons_self
    obtain ⟨rest, hrest, hsentence'⟩ :=
      ih fun other hother => h other (List.mem_cons_of_mem _ hother)
    exact ⟨first ++ rest, hfirst.append hrest, hsentence.append hsentence'⟩

/-- A mention can be derived, between sentences in place of the symbols around it. -/
theorem exists_derives_of_mentions {name : String} {symbol : Symbol} (h : g.Mentions name symbol)
    (hproductive : ∀ other, g.Mentions name other → g.IsProductive other) :
    ∃ front back, Derives g.rules [name] (front ++ symbol :: back) ∧
      g.IsSentence front ∧ g.IsSentence back := by
  obtain ⟨alternative, hproduces, hmem⟩ := h
  obtain ⟨before, behind, rfl⟩ := List.append_of_mem hmem
  have haround : ∀ other ∈ before ++ symbol :: behind, g.IsProductive other :=
    fun other hother => hproductive other ⟨_, hproduces, hother⟩
  obtain ⟨front, hfront, hsentence⟩ := exists_sentence_of_isProductive
    fun other hother => haround other (List.mem_append_left _ hother)
  obtain ⟨back, hback, hsentence'⟩ := exists_sentence_of_isProductive
    fun other hother => haround other (List.mem_append_right _ (List.mem_cons_of_mem _ hother))
  have hone : Derives g.rules [symbol] [symbol] := .refl
  have hall : Derives g.rules (before ++ symbol :: behind) (front ++ symbol :: back) := by
    simpa only [List.singleton_append] using hfront.append (hone.append hback)
  exact ⟨front, back, hproduces.derives.trans hall, hsentence, hsentence'⟩

variable {linked : LinkedGrammar}

theorem exists_sentence_of_reaches (hlink : g.link = .ok linked) {first terminal : Symbol}
    {sort : SymbolSort} (hterminal : g.IsTerminalOf terminal sort)
    (hreaches : g.Reaches first terminal)
    (hproductive : ∀ rule ∈ g.names, g.Reaches first rule → g.IsProductive rule) :
    ∃ word, Derives g.rules [first] word ∧ g.IsSentence word ∧ terminal ∈ word := by
  -- The path is followed from its end, so that what its next symbol derives is known.
  induction hreaches using Relation.ReflTransGen.head_induction_on with
  | refl => exact ⟨[terminal], .refl, hterminal.isSentence, List.mem_cons_self⟩
  | @head rule next hmentions hrest ih =>
    obtain ⟨word, hword, hsentence, hmem⟩ := ih fun other hother hreaches =>
      hproductive other hother (.head hmentions hreaches)
    have haround : ∀ other, g.Mentions rule other → g.IsProductive other := by
      intro other hother
      obtain ⟨otherSort, hsort⟩ := exists_sortOf?_of_mentions hlink hother
      rcases mem_names_or_isTerminalOf hsort with hname | hotherTerminal
      · exact hproductive other hname (.single hother)
      · exact hotherTerminal.isProductive
    obtain ⟨front, back, hderives, hfront, hback⟩ := exists_derives_of_mentions hmentions haround
    have hinner : Derives g.rules (front ++ [next] ++ back) (front ++ word ++ back) :=
      hword.surround front back
    rw [List.append_assoc, List.singleton_append] at hinner
    have hmem' : terminal ∈ front ++ word ++ back :=
      List.mem_append_left _ (List.mem_append_right _ hmem)
    exact ⟨front ++ word ++ back, hderives.trans hinner,
      (hfront.append hsentence).append hback, hmem'⟩

end GrammarCompletion.Grammar
