import GrammarCompletion.Proofs.Grammar.Links

/-! Linking a grammar, as a whole. It fails exactly if some symbol is neither a rule nor spelt like a
terminal, and then for the first such symbol in reading order. Otherwise the table of parents turns
the mentions around: its symbols stand in the order in which another rule first mentions them, and
each has the rules that mention it, as the grammar orders them. -/

namespace GrammarCompletion

theorem exists_of_flatMap_eq_append_cons {α β : Type} {f : α → List β} {l : List α}
    {before behind : List β} {b : β} (h : l.flatMap f = before ++ b :: behind) :
    ∃ first a last front back, l = first ++ a :: last ∧ f a = front ++ b :: back ∧
      before = first.flatMap f ++ front := by
  induction l generalizing before with
  | nil => simp at h
  | cons a l ih =>
    rw [List.flatMap_cons, List.append_eq_append_iff] at h
    rcases h with ⟨rest, hbefore, hrest⟩ | ⟨rest, hfirst, hrest⟩
    · obtain ⟨first, a', last, front, back, rfl, hsplit, rfl⟩ := ih hrest
      exact ⟨a :: first, a', last, front, back, rfl, hsplit, by
        rw [hbefore, List.flatMap_cons, List.append_assoc]⟩
    · cases rest with
      | nil =>
        have hinner : l.flatMap f = [] ++ b :: behind := hrest.symm
        obtain ⟨first, a', last, front, back, rfl, hsplit, hnil⟩ := ih hinner
        refine ⟨a :: first, a', last, front, back, rfl, hsplit, ?_⟩
        rw [List.flatMap_cons, List.append_assoc, ← hnil, hfirst, List.append_nil, List.append_nil]
      | cons b' rest =>
        obtain ⟨rfl, _⟩ := List.cons.inj hrest
        exact ⟨[], a, l, before, rest, rfl, hfirst, rfl⟩

namespace ParentTable

def symbols (table : ParentTable) : List Symbol := table.map Prod.fst

theorem symbols_insert (table : ParentTable) (symbol : Symbol) (parent : String) :
    (table.insert symbol parent).symbols =
      if symbol ∈ table.symbols then table.symbols else table.symbols ++ [symbol] := by
  induction table with
  | nil => rfl
  | cons entry table ih =>
    obtain ⟨s, parents⟩ := entry
    have hsymbols : symbols ((s, parents) :: table) = s :: symbols table := rfl
    rw [insert, hsymbols]
    by_cases hs : s = symbol
    · have hmem : symbol ∈ s :: symbols table := by simp [hs]
      rw [if_pos hs, if_pos hmem]
      rfl
    · have hne : ¬ symbol = s := fun heq => hs heq.symm
      have hrest : symbols ((s, parents) :: insert symbol parent table) =
        s :: symbols (insert symbol parent table) := rfl
      rw [if_neg hs, hrest, ih]
      by_cases hmem : symbol ∈ symbols table <;> simp [hmem, hne]

theorem parentsOf_of_mem {table : ParentTable} (hnodup : table.symbols.Nodup)
    {entry : Symbol × List String} (h : entry ∈ table) : table.parentsOf entry.1 = entry.2 := by
  induction table with
  | nil => simp at h
  | cons first table ih =>
    obtain ⟨hfirst, hnodup⟩ := List.nodup_cons.1 hnodup
    rw [parentsOf_cons]
    rcases List.mem_cons.1 h with rfl | h
    · rw [if_pos rfl]
    · have hne : first.1 ≠ entry.1 := fun heq => hfirst (heq ▸ List.mem_map_of_mem h)
      rw [if_neg hne, ih hnodup h]

end ParentTable

namespace Grammar

variable {g : Grammar}

def IsUnknown (g : Grammar) (symbol : Symbol) : Prop :=
  symbol ∉ g.names ∧ terminalSort? symbol = none

theorem sortOf?_eq_none_iff {symbol : Symbol} : g.sortOf? symbol = none ↔ g.IsUnknown symbol := by
  unfold sortOf? IsUnknown
  by_cases h : symbol ∈ g.names <;> simp [h]

/-- The symbol is unknown and no symbol before it is, by the order of the rules, of the alternatives of
a rule and of the symbols of an alternative. -/
inductive FirstUnknown (g : Grammar) : String → Symbol → Prop where
  | intro {rule : Rule} {symbol : Symbol} {before behind : List Rule}
      {earlier later : List Alternative} {front back : Alternative}
      (rules : g.rules = before ++ rule :: behind)
      (alternatives : rule.alternatives = earlier ++ (front ++ symbol :: back) :: later)
      (unknown : g.IsUnknown symbol)
      (rules_known : ∀ r ∈ before, ∀ alternative ∈ r.alternatives, ∀ s ∈ alternative,
        ¬ g.IsUnknown s)
      (alternatives_known : ∀ alternative ∈ earlier, ∀ s ∈ alternative, ¬ g.IsUnknown s)
      (symbols_known : ∀ s ∈ front, ¬ g.IsUnknown s) : FirstUnknown g rule.name symbol

theorem firstUnknown_of_mentions {before behind : List (String × Symbol)} {name : String}
    {symbol : Symbol} (h : g.mentions = before ++ (name, symbol) :: behind)
    (hknown : ∀ m ∈ before, ¬ g.IsUnknown m.2) (hunknown : g.IsUnknown symbol) :
    g.FirstUnknown name symbol := by
  obtain ⟨first, rule, last, front, back, hrules, hrule, rfl⟩ := exists_of_flatMap_eq_append_cons h
  obtain ⟨symbols, rest, hsymbols, rfl, hrest⟩ := List.map_eq_append_iff.1 hrule
  obtain ⟨s, _, rfl, hmention, _⟩ := List.map_eq_cons_iff.1 hrest
  obtain ⟨rfl, rfl⟩ := Prod.mk.inj hmention
  rw [Rule.symbols, ← List.flatMap_id] at hsymbols
  obtain ⟨earlier, alternative, later, frontSymbols, backSymbols, halternatives, hsplit, rfl⟩ :=
    exists_of_flatMap_eq_append_cons hsymbols
  rw [id_eq] at hsplit
  rw [List.flatMap_id] at hknown
  refine .intro hrules (hsplit ▸ halternatives) hunknown ?_ ?_ ?_
  · intro r hr alternative halternative s hs
    refine hknown (r.name, s) (List.mem_append_left _ (List.mem_flatMap.2 ⟨r, hr, ?_⟩))
    exact List.mem_map_of_mem (List.mem_flatten.2 ⟨alternative, halternative, hs⟩)
  · intro alternative halternative s hs
    refine hknown (rule.name, s) (List.mem_append_right _ (List.mem_map_of_mem ?_))
    exact List.mem_append_left _ (List.mem_flatten.2 ⟨alternative, halternative, hs⟩)
  · intro s hs
    exact hknown (rule.name, s)
      (List.mem_append_right _ (List.mem_map_of_mem (List.mem_append_right _ hs)))

theorem firstUnknown_of_link_eq_error {fault : Fault} (h : g.link = .error fault) :
    ∃ name symbol, g.FirstUnknown name symbol ∧ fault = .unknownReference name symbol := by
  obtain ⟨before, name, symbol, behind, hsplit, hknown, hsort, hfault⟩ :=
    exists_first_of_link_eq_error h
  refine ⟨name, symbol, firstUnknown_of_mentions hsplit ?_ (sortOf?_eq_none_iff.1 hsort), hfault⟩
  intro m hm hunknown
  exact hknown m hm (sortOf?_eq_none_iff.2 hunknown)

theorem FirstUnknown.mentions {name : String} {symbol : Symbol} (h : g.FirstUnknown name symbol) :
    g.Mentions name symbol ∧ g.IsUnknown symbol := by
  cases h with
  | @intro rule _ before behind earlier later front back hrules halternatives hunknown =>
    have hrule : rule ∈ g.rules := by simp [hrules]
    have halternative : front ++ symbol :: back ∈ rule.alternatives := by simp [halternatives]
    exact ⟨⟨_, ⟨rule, hrule, rfl, halternative⟩, by simp⟩, hunknown⟩

theorem link_ne_ok_of_isUnknown {name : String} {symbol : Symbol} (hmentions : g.Mentions name symbol)
    (hunknown : g.IsUnknown symbol) (linked : LinkedGrammar) : g.link ≠ .ok linked := by
  intro h
  obtain ⟨sort, hsort⟩ := exists_sortOf?_of_mentions h hmentions
  rw [sortOf?_eq_none_iff.2 hunknown] at hsort
  exact absurd hsort.symm (Option.some_ne_none sort)

theorem symbols_addMentions {mentions : List (String × Symbol)} {table after : ParentTable}
    {seen : List Symbol} (htable : table.symbols = seen.eraseDups)
    (h : mentions.foldlM g.addMention table = .ok after) :
    after.symbols =
      (seen ++ (mentions.filter fun m => m.2 ≠ m.1).map Prod.snd).eraseDups := by
  induction mentions generalizing table seen with
  | nil =>
    obtain rfl := Except.ok.inj h
    simpa using htable
  | cons mention mentions ih =>
    obtain ⟨rule, symbol⟩ := mention
    rw [List.foldlM_cons] at h
    obtain ⟨next, hstep, hrest⟩ := exists_ok_of_bind h
    have hnext := (addMention_eq_ok hstep).2
    by_cases hself : symbol = rule
    · rw [if_pos hself] at hnext
      rw [ih (hnext ▸ htable) hrest, List.filter_cons_of_neg (by simp [hself])]
    · rw [if_neg hself] at hnext
      have hsymbols : next.symbols = (seen ++ [symbol]).eraseDups := by
        rw [hnext, ParentTable.symbols_insert, eraseDups_append_singleton, htable]
        simp only [List.mem_eraseDups]
      rw [ih hsymbols hrest, List.filter_cons_of_pos (by simpa using hself), List.map_cons,
        List.append_assoc, List.singleton_append]

theorem symbols_link {linked : LinkedGrammar} (h : g.link = .ok linked) :
    linked.parents.symbols =
      (g.rules.flatMap fun r => r.symbols.filter (· ≠ r.name)).eraseDups := by
  have hstart : ParentTable.symbols [] = ([] : List Symbol).eraseDups := rfl
  have hadd := symbols_addMentions hstart (link_eq_ok h).2
  rw [hadd, List.nil_append, mentions, List.filter_flatMap, List.map_flatMap]
  congr 2
  funext r
  rw [List.filter_map, List.map_map]
  exact List.map_id _

theorem mem_symbols_iff {linked : LinkedGrammar} (h : g.link = .ok linked) {symbol : Symbol} :
    symbol ∈ linked.parents.symbols ↔ linked.parentsOf symbol ≠ [] := by
  rw [symbols_link h, List.mem_eraseDups, parentsOf_eq_filter h]
  simp only [List.mem_flatMap, List.mem_filter, ne_eq, List.map_eq_nil_iff,
    List.filter_eq_nil_iff, decide_eq_true_eq, not_forall, not_not, exists_prop]
  constructor
  · rintro ⟨rule, hrule, hsymbol, hne⟩
    exact ⟨rule, hrule, fun heq => hne heq.symm, hsymbol⟩
  · rintro ⟨rule, hrule, hne, hsymbol⟩
    exact ⟨rule, hrule, hsymbol, fun heq => hne heq.symm⟩

theorem parentsOf_sublist_names {linked : LinkedGrammar} (h : g.link = .ok linked)
    (symbol : Symbol) : (linked.parentsOf symbol).Sublist g.names := by
  rw [parentsOf_eq_filter h]
  exact List.filter_sublist.map Rule.name

/-- Linking is refused exactly for unknown symbols, at the first of them. Otherwise the parents of a
symbol are the rules of other names that mention it, each once and in the order of the grammar, and
the table lists the symbols that have parents by their first mention in another rule. -/
theorem link_reverses_mentions (g : Grammar) :
    ((∃ fault, g.link = .error fault) ↔
      ∃ rule ∈ g.rules, ∃ alternative ∈ rule.alternatives, ∃ symbol ∈ alternative,
        g.IsUnknown symbol) ∧
    (∀ fault, g.link = .error fault →
      ∃ name symbol, g.FirstUnknown name symbol ∧ fault = .unknownReference name symbol) ∧
    ∀ linked, g.link = .ok linked →
      (∀ symbol name, name ∈ linked.parentsOf symbol ↔
        name ≠ symbol ∧ ∃ rule ∈ g.rules, rule.name = name ∧
          ∃ alternative ∈ rule.alternatives, symbol ∈ alternative) ∧
      (∀ symbol, (linked.parentsOf symbol).Nodup ∧ (linked.parentsOf symbol).Sublist g.names) ∧
      (∀ symbol, symbol ∈ linked.parents.symbols ↔ linked.parentsOf symbol ≠ []) ∧
      (linked.parents.symbols =
        (g.rules.flatMap fun r => r.symbols.filter (· ≠ r.name)).eraseDups) ∧
      ∀ entry ∈ linked.parents, entry.2 = linked.parentsOf entry.1 := by
  refine ⟨⟨?_, ?_⟩, fun _ => firstUnknown_of_link_eq_error, fun linked h => ⟨?_, ?_, ?_, ?_, ?_⟩⟩
  · rintro ⟨fault, hfault⟩
    obtain ⟨name, symbol, hfirst, _⟩ := firstUnknown_of_link_eq_error hfault
    obtain ⟨⟨alternative, ⟨rule, hrule, _, halternative⟩, hsymbol⟩, hunknown⟩ := hfirst.mentions
    exact ⟨rule, hrule, alternative, halternative, symbol, hsymbol, hunknown⟩
  · rintro ⟨rule, hrule, alternative, halternative, symbol, hsymbol, hunknown⟩
    have hmentions : g.Mentions rule.name symbol :=
      ⟨alternative, ⟨rule, hrule, rfl, halternative⟩, hsymbol⟩
    cases hlink : g.link with
    | error fault => exact ⟨fault, rfl⟩
    | ok linked => exact absurd hlink (link_ne_ok_of_isUnknown hmentions hunknown linked)
  · intro symbol name
    rw [mem_parentsOf_iff h]
    refine and_congr_right fun _ => ⟨?_, ?_⟩
    · rintro ⟨alternative, ⟨rule, hrule, hname, halternative⟩, hsymbol⟩
      exact ⟨rule, hrule, hname, alternative, halternative, hsymbol⟩
    · rintro ⟨rule, hrule, hname, alternative, halternative, hsymbol⟩
      exact ⟨alternative, ⟨rule, hrule, hname, halternative⟩, hsymbol⟩
  · intro symbol
    have hsublist := parentsOf_sublist_names h symbol
    exact ⟨hsublist.nodup g.distinct, hsublist⟩
  · exact fun _ => mem_symbols_iff h
  · exact symbols_link h
  · intro entry hentry
    have hnodup : linked.parents.symbols.Nodup := by
      rw [symbols_link h]
      exact nodup_eraseDups _
    exact (ParentTable.parentsOf_of_mem hnodup hentry).symm

def entryGrammar : Grammar where
  rules := [⟨"rows", [["row", "rows"], []]⟩, ⟨"row", [["CELL"], ["CELL", "'|'", "row"]]⟩,
    ⟨"head", [["row", "CELL"]]⟩]
  distinct := by decide

def entryLinked : LinkedGrammar where
  grammar := entryGrammar
  parents := [("row", ["rows", "head"]), ("CELL", ["row", "head"]), ("'|'", ["row"])]

def strayGrammar : Grammar where
  rules := [⟨"rows", [["row"], ["'!'", "cell"]]⟩, ⟨"row", [["last"]]⟩]
  distinct := by decide

theorem link_reverses_mentions_entries :
    entryGrammar.link = .ok entryLinked ∧
      (entryLinked.parentsOf "row").Sublist entryGrammar.names ∧
      entryLinked.parents.symbols = ["row", "CELL", "'|'"] ∧
      strayGrammar.link = .error (.unknownReference "rows" "cell") ∧
      ∃ name symbol, strayGrammar.FirstUnknown name symbol ∧
        Fault.unknownReference "rows" "cell" = .unknownReference name symbol := by
  have hlinked : entryGrammar.link = .ok entryLinked := by rfl
  have hstray : strayGrammar.link = .error (.unknownReference "rows" "cell") := by rfl
  obtain ⟨_, hsublist, _, hsymbols, _⟩ :=
    (link_reverses_mentions entryGrammar).2.2 entryLinked hlinked
  exact ⟨hlinked, (hsublist "row").2, hsymbols.trans (by decide), hstray,
    (link_reverses_mentions strayGrammar).2.1 _ hstray⟩

end Grammar

end GrammarCompletion
