import GrammarCompletion.Grammar.Links
import GrammarCompletion.Proofs.FirstPlaces
import GrammarCompletion.Proofs.Grammar.Derivation

/-! What the links of a grammar say: the parents of a symbol are the rules of other names that
mention it, in the order of the table. Mentions are recorded one by one. The mentions of one rule
add it at most once to the parents of a symbol, and the rules follow each other in the table. -/

namespace GrammarCompletion

theorem exists_ok_of_bind {ε α β : Type} {x : Except ε α} {f : α → Except ε β} {b : β}
    (h : x >>= f = .ok b) : ∃ a, x = .ok a ∧ f a = .ok b := by
  cases x with
  | error fault => simp [bind, Except.bind] at h
  | ok a => exact ⟨a, rfl, h⟩

namespace Grammar

variable (g : Grammar)

def Mentions (name : String) (symbol : Symbol) : Prop :=
  ∃ alternative, Produces g.rules name alternative ∧ symbol ∈ alternative

theorem alternatives?_of_mem {rule : Rule} (h : rule ∈ g.rules) :
    g.alternatives? rule.name = some rule.alternatives := by
  unfold alternatives?
  cases hfind : g.rules.find? (·.name = rule.name) with
  | none =>
    have hnone : ∀ other ∈ g.rules, other.name ≠ rule.name := by simpa using hfind
    exact absurd rfl (hnone rule h)
  | some other =>
    have hname : other.name = rule.name := by simpa using List.find?_some hfind
    have hother := List.mem_of_find?_eq_some hfind
    rw [List.inj_on_of_nodup_map g.distinct hother h hname, Option.map_some]

theorem mem_alternatives?_iff {name : String} {alternative : Alternative} :
    alternative ∈ (g.alternatives? name).getD [] ↔ Produces g.rules name alternative := by
  by_cases hname : name ∈ g.names
  · obtain ⟨rule, hrule, rfl⟩ := List.mem_map.1 hname
    rw [alternatives?_of_mem g hrule, Option.getD_some, produces_iff_of_mem g.distinct hrule]
  · have hnone : g.alternatives? name = none := by
      have hfind : g.rules.find? (·.name = name) = none := by
        rw [List.find?_eq_none]
        intro rule hrule heq
        exact hname (List.mem_map.2 ⟨rule, hrule, by simpa using heq⟩)
      rw [alternatives?, hfind, Option.map_none]
    rw [hnone]
    constructor
    · intro hmem
      simp at hmem
    · intro hproduces
      exact absurd hproduces.mem_names hname

theorem mem_mentions_iff {name : String} {symbol : Symbol} :
    (name, symbol) ∈ g.mentions ↔ g.Mentions name symbol := by
  unfold mentions
  simp only [List.mem_flatMap, List.mem_map, Rule.symbols, List.mem_flatten, Prod.mk.injEq]
  constructor
  · rintro ⟨rule, hrule, _, ⟨alternative, halternative, hsymbol⟩, hname, rfl⟩
    exact ⟨alternative, ⟨rule, hrule, hname, halternative⟩, hsymbol⟩
  · rintro ⟨alternative, ⟨rule, hrule, hname, halternative⟩, hsymbol⟩
    exact ⟨rule, hrule, symbol, ⟨alternative, halternative, hsymbol⟩, hname, rfl⟩

end Grammar

namespace ParentTable

theorem parentsOf_cons (entry : Symbol × List String) (table : ParentTable) (symbol : Symbol) :
    parentsOf (entry :: table) symbol =
      if entry.1 = symbol then entry.2 else table.parentsOf symbol := by
  unfold parentsOf
  rw [List.lookup_cons]
  by_cases h : entry.1 = symbol
  · simp [h]
  · have hne : (symbol == entry.1) = false := by simpa using fun heq => h heq.symm
    rw [if_neg h, hne]

theorem parentsOf_insert (table : ParentTable) (symbol other : Symbol) (parent : String) :
    (table.insert symbol parent).parentsOf other =
      if symbol = other ∧ parent ∉ table.parentsOf other then table.parentsOf other ++ [parent]
      else table.parentsOf other := by
  induction table with
  | nil =>
    rw [insert, parentsOf_cons]
    have hnil : parentsOf [] other = [] := rfl
    simp [hnil]
  | cons entry table ih =>
    obtain ⟨s, parents⟩ := entry
    rw [insert, parentsOf_cons]
    by_cases hs : s = symbol
    · subst hs
      rw [if_pos rfl, parentsOf_cons]
      by_cases hother : s = other
      · simp only [hother, if_true, true_and, ite_not]
      · simp [hother]
    · rw [if_neg hs, parentsOf_cons]
      by_cases hother : s = other
      · have hne : ¬ symbol = other := fun heq => hs (hother.trans heq.symm)
        simp [hother, hne]
      · simp only [hother, if_false, ih]

end ParentTable

namespace Grammar

variable {g : Grammar}

theorem addMention_eq_ok {table after : ParentTable} {rule : String} {symbol : Symbol}
    (h : g.addMention table (rule, symbol) = .ok after) :
    (∃ sort, g.sortOf? symbol = some sort) ∧
      after = if symbol = rule then table else table.insert symbol rule := by
  rw [addMention] at h
  split at h
  · simp at h
  · rename_i hsort
    have hmeaning : ∃ sort, g.sortOf? symbol = some sort :=
      Option.ne_none_iff_exists'.1 (by simpa using hsort)
    refine ⟨hmeaning, ?_⟩
    split at h
    · rename_i hself
      rw [if_pos hself]
      exact (Except.ok.inj h).symm
    · rename_i hself
      rw [if_neg hself]
      exact (Except.ok.inj h).symm

theorem parentsOf_addMention {table after : ParentTable} {rule : String} {mentioned : Symbol}
    (h : g.addMention table (rule, mentioned) = .ok after) (symbol : Symbol) :
    after.parentsOf symbol =
      if mentioned = symbol ∧ rule ≠ symbol ∧ rule ∉ table.parentsOf symbol then
        table.parentsOf symbol ++ [rule]
      else table.parentsOf symbol := by
  rw [(addMention_eq_ok h).2]
  by_cases hself : mentioned = rule
  · have hno : ¬ (mentioned = symbol ∧ rule ≠ symbol ∧ rule ∉ table.parentsOf symbol) :=
      fun hnew => hnew.2.1 (hself ▸ hnew.1)
    rw [if_pos hself, if_neg hno]
  · rw [if_neg hself, ParentTable.parentsOf_insert]
    refine if_congr ?_ rfl rfl
    constructor
    · rintro ⟨rfl, hnew⟩
      exact ⟨rfl, fun heq => hself heq.symm, hnew⟩
    · rintro ⟨hsymbol, _, hnew⟩
      exact ⟨hsymbol, hnew⟩

theorem parentsOf_addRule {symbols : List Symbol} {rule : String} {table after : ParentTable}
    (h : (symbols.map (rule, ·)).foldlM g.addMention table = .ok after) (symbol : Symbol) :
    after.parentsOf symbol =
      if symbol ∈ symbols ∧ rule ≠ symbol ∧ rule ∉ table.parentsOf symbol then
        table.parentsOf symbol ++ [rule]
      else table.parentsOf symbol := by
  induction symbols generalizing table with
  | nil =>
    obtain rfl := Except.ok.inj h
    simp
  | cons mentioned symbols ih =>
    rw [List.map_cons, List.foldlM_cons] at h
    obtain ⟨next, hstep, hrest⟩ := exists_ok_of_bind h
    have hnext := parentsOf_addMention hstep symbol
    by_cases hnew : mentioned = symbol ∧ rule ≠ symbol ∧ rule ∉ table.parentsOf symbol
    · -- The rule is a parent by now, so the mentions behind add nothing.
      rw [if_pos hnew] at hnext
      have hmem : rule ∈ next.parentsOf symbol := by simp [hnext]
      rw [ih hrest, if_neg fun hagain => hagain.2.2 hmem, hnext,
        if_pos ⟨List.mem_cons.2 (.inl hnew.1.symm), hnew.2⟩]
    · rw [if_neg hnew] at hnext
      rw [ih hrest, hnext]
      refine if_congr ?_ rfl rfl
      constructor
      · rintro ⟨hmem, hrule⟩
        exact ⟨List.mem_cons_of_mem _ hmem, hrule⟩
      · rintro ⟨hmem, hrule⟩
        rcases List.mem_cons.1 hmem with heq | hmem
        · exact absurd ⟨heq.symm, hrule⟩ hnew
        · exact ⟨hmem, hrule⟩

theorem parentsOf_addRules (symbol : Symbol) {rules : List Rule}
    (hnodup : (rules.map Rule.name).Nodup) {table after : ParentTable}
    (hnew : ∀ rule ∈ rules, rule.name ∉ table.parentsOf symbol)
    (h : (rules.flatMap fun r => r.symbols.map (r.name, ·)).foldlM g.addMention table =
      .ok after) :
    after.parentsOf symbol = table.parentsOf symbol ++
      (rules.filter fun r => r.name ≠ symbol ∧ symbol ∈ r.symbols).map Rule.name := by
  induction rules generalizing table with
  | nil =>
    obtain rfl := Except.ok.inj h
    simp
  | cons rule rules ih =>
    rw [List.flatMap_cons, List.foldlM_append] at h
    obtain ⟨next, hrule, hrest⟩ := exists_ok_of_bind h
    have hnext := parentsOf_addRule hrule symbol
    have hthis : rule.name ∉ table.parentsOf symbol := hnew rule List.mem_cons_self
    have hlater : ∀ other ∈ rules, other.name ∉ table.parentsOf symbol :=
      fun other hother => hnew other (List.mem_cons_of_mem _ hother)
    obtain ⟨hname, hnodup⟩ := List.nodup_cons.1 hnodup
    by_cases hmentions : rule.name ≠ symbol ∧ symbol ∈ rule.symbols
    · rw [if_pos ⟨hmentions.2, hmentions.1, hthis⟩] at hnext
      have hfresh : ∀ other ∈ rules, other.name ∉ next.parentsOf symbol := by
        intro other hother hmem
        rw [hnext, List.mem_append, List.mem_singleton] at hmem
        rcases hmem with hmem | heq
        · exact hlater other hother hmem
        · exact hname (heq ▸ List.mem_map_of_mem hother)
      rw [ih hnodup hfresh hrest, hnext, List.filter_cons_of_pos (by simpa using hmentions),
        List.map_cons, List.append_assoc, List.singleton_append]
    · rw [if_neg fun hadds => hmentions ⟨hadds.2.1, hadds.1⟩] at hnext
      rw [ih hnodup (by rwa [hnext]) hrest, hnext,
        List.filter_cons_of_neg (by simpa using hmentions)]

theorem link_eq_ok {linked : LinkedGrammar} (h : g.link = .ok linked) :
    linked.grammar = g ∧ g.mentions.foldlM g.addMention [] = .ok linked.parents := by
  unfold link at h
  cases hfold : g.mentions.foldlM g.addMention [] with
  | error fault => simp [hfold, Except.map] at h
  | ok table =>
    rw [hfold] at h
    obtain rfl := Except.ok.inj h
    exact ⟨rfl, rfl⟩

/-- The parents of a symbol are the rules of other names that mention it, as the table has them. -/
theorem parentsOf_eq_filter {linked : LinkedGrammar} (h : g.link = .ok linked) (symbol : Symbol) :
    linked.parentsOf symbol =
      (g.rules.filter fun r => r.name ≠ symbol ∧ symbol ∈ r.symbols).map Rule.name := by
  have hnil : ParentTable.parentsOf [] symbol = [] := rfl
  have hadd := parentsOf_addRules symbol g.distinct (by simp [hnil]) (link_eq_ok h).2
  rw [hnil, List.nil_append] at hadd
  exact hadd

theorem mem_parentsOf_iff {linked : LinkedGrammar} (h : g.link = .ok linked) {name : String}
    {symbol : Symbol} :
    name ∈ linked.parentsOf symbol ↔ name ≠ symbol ∧ g.Mentions name symbol := by
  rw [parentsOf_eq_filter h, ← mem_mentions_iff]
  unfold mentions
  simp only [List.mem_map, List.mem_filter, List.mem_flatMap, decide_eq_true_eq, Prod.mk.injEq]
  constructor
  · rintro ⟨rule, ⟨hrule, hne, hsymbol⟩, rfl⟩
    exact ⟨hne, rule, hrule, symbol, hsymbol, rfl, rfl⟩
  · rintro ⟨hne, rule, hrule, _, hsymbol, rfl, rfl⟩
    exact ⟨rule, ⟨hrule, hne, hsymbol⟩, rfl⟩

theorem exists_sortOf?_of_addMentions {mentions : List (String × Symbol)}
    {table after : ParentTable} (h : mentions.foldlM g.addMention table = .ok after)
    {name : String} {symbol : Symbol} (hmem : (name, symbol) ∈ mentions) :
    ∃ sort, g.sortOf? symbol = some sort := by
  induction mentions generalizing table with
  | nil => simp at hmem
  | cons mention mentions ih =>
    rw [List.foldlM_cons] at h
    obtain ⟨next, hstep, hrest⟩ := exists_ok_of_bind h
    rcases List.mem_cons.1 hmem with rfl | hmem
    · exact (addMention_eq_ok hstep).1
    · exact ih hrest hmem

theorem exists_first_of_addMentions_eq_error {mentions : List (String × Symbol)}
    {table : ParentTable} {fault : Fault}
    (h : mentions.foldlM g.addMention table = .error fault) :
    ∃ before name symbol behind, mentions = before ++ (name, symbol) :: behind ∧
      (∀ m ∈ before, g.sortOf? m.2 ≠ none) ∧ g.sortOf? symbol = none ∧
        fault = .unknownReference name symbol := by
  induction mentions generalizing table with
  | nil => simp [pure, Except.pure] at h
  | cons mention mentions ih =>
    obtain ⟨name, symbol⟩ := mention
    rw [List.foldlM_cons] at h
    cases hstep : g.addMention table (name, symbol) with
    | error found =>
      rw [hstep] at h
      have hfound : found = fault := Except.error.inj h
      rw [addMention] at hstep
      split at hstep
      · rename_i hsort
        have hfault : .unknownReference name symbol = found := Except.error.inj hstep
        exact ⟨[], name, symbol, mentions, rfl, by simp, by simpa using hsort,
          by rw [hfault, hfound]⟩
      · split at hstep <;> simp at hstep
    | ok next =>
      rw [hstep] at h
      obtain ⟨before, name', symbol', behind, hsplit, hbefore, hsort, hfault⟩ := ih h
      obtain ⟨sort, hmeaning⟩ := (addMention_eq_ok hstep).1
      have hknown : ∀ m ∈ (name, symbol) :: before, g.sortOf? m.2 ≠ none := by
        rw [List.forall_mem_cons, hmeaning]
        exact ⟨Option.some_ne_none sort, hbefore⟩
      exact ⟨(name, symbol) :: before, name', symbol', behind, by rw [hsplit, List.cons_append],
        hknown, hsort, hfault⟩

theorem exists_first_of_link_eq_error {fault : Fault} (h : g.link = .error fault) :
    ∃ before name symbol behind, g.mentions = before ++ (name, symbol) :: behind ∧
      (∀ m ∈ before, g.sortOf? m.2 ≠ none) ∧ g.sortOf? symbol = none ∧
        fault = .unknownReference name symbol := by
  unfold link at h
  cases hfold : g.mentions.foldlM g.addMention [] with
  | error found =>
    rw [hfold] at h
    have hfound : found = fault := Except.error.inj h
    rw [← hfound]
    exact exists_first_of_addMentions_eq_error hfold
  | ok table => simp [hfold, Except.map] at h

theorem link_eq_error {fault : Fault} (h : g.link = .error fault) :
    ∃ name symbol, g.Mentions name symbol ∧ g.sortOf? symbol = none ∧
      fault = .unknownReference name symbol := by
  obtain ⟨before, name, symbol, behind, hsplit, _, hsort, hfault⟩ :=
    exists_first_of_link_eq_error h
  exact ⟨name, symbol, g.mem_mentions_iff.1 (by simp [hsplit]), hsort, hfault⟩

theorem exists_sortOf?_of_mentions {linked : LinkedGrammar} (h : g.link = .ok linked)
    {name : String} {symbol : Symbol} (hmentions : g.Mentions name symbol) :
    ∃ sort, g.sortOf? symbol = some sort :=
  exists_sortOf?_of_addMentions (link_eq_ok h).2 (g.mem_mentions_iff.2 hmentions)

end Grammar

end GrammarCompletion
