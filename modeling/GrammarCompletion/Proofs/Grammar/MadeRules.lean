import GrammarCompletion.Proofs.Ebnf.Acceptance
import GrammarCompletion.Proofs.Ebnf.Desugaring
import GrammarCompletion.Proofs.Ebnf.Ownership
import GrammarCompletion.Proofs.Grammar.Linking
import GrammarCompletion.Proofs.Grammar.Source

/-! The made rules of grammars that are read from text. Behind each written rule stand the rules made
for its groups and repetitions, in post-order. Their names are met nowhere else, every made rule that is
mentioned is there, and each is the child of a single rule: the written one or a later one of the same
owner. So what a grammar lacks is always something that was written. -/

namespace GrammarCompletion.Ebnf

section Written

def Phrase.WellFormed : Phrase → Prop
  | .item entry => entry.WellFormed
  | .sequence items => ∀ item ∈ items, item.WellFormed
  | .choice alternatives => ∀ items ∈ alternatives, ∀ item ∈ items, item.WellFormed

theorem IsName.isIdentifier {name : String} {token : List Char} (h : IsName name token) :
    isIdentifier name.toList = true := by
  cases h <;> assumption

theorem Spells.wellFormed {phrase : Phrase} {tokens : List (List Char)} (h : Spells phrase tokens) :
    phrase.WellFormed := by
  induction h with
  | reference hname => exact .reference hname.isIdentifier
  | terminal hlexeme => exact .terminal hlexeme
  | group _ ih => exact .group ih
  | nil => simp [Phrase.WellFormed]
  | cons _ _ ihhead ihtail => exact List.forall_mem_cons.2 ⟨ihhead, ihtail⟩
  | single _ ih => exact List.forall_mem_singleton.2 ih
  | more _ _ ihhead ihtail => exact List.forall_mem_cons.2 ⟨ihhead, ihtail⟩

theorem SpellsRule.wellFormed {definition : Definition} {tokens : List (List Char)}
    (h : SpellsRule definition tokens) : isIdentifier definition.name.toList = true ∧
      ∀ items ∈ definition.body, ∀ item ∈ items, item.WellFormed := by
  cases h with
  | unended hname _ hbody | ended hname _ hbody => exact ⟨hname.isIdentifier, hbody.wellFormed⟩

theorem SpellsAll.wellFormed {document : Document} {tokens : List (List Char)}
    (h : SpellsAll document tokens) : ∀ definition ∈ document,
      isIdentifier definition.name.toList = true ∧
        ∀ items ∈ definition.body, ∀ item ∈ items, item.WellFormed := by
  induction h with
  | nil => simp
  | cons hrule _ ih => exact List.forall_mem_cons.2 ⟨hrule.wellFormed, ih⟩

theorem Document.nodup_names_of_lower {document : Document}
    (h : (document.lower.map Rule.name).Nodup) : (document.map Definition.name).Nodup := by
  rw [Document.lower, List.map_flatMap, List.nodup_flatMap] at h
  refine List.pairwise_map.2 (h.2.imp fun hdisjoint heq => ?_)
  refine hdisjoint List.mem_cons_self ?_
  rw [heq]
  exact List.mem_cons_self

theorem Document.wellFormed_of_spellsAll {document : Document} {tokens : List (List Char)}
    (h : SpellsAll document tokens) (hnodup : (document.lower.map Rule.name).Nodup) :
    document.WellFormed where
  names := fun definition hdefinition => (h.wellFormed definition hdefinition).1
  distinct := Document.nodup_names_of_lower hnodup
  items := fun definition hdefinition => (h.wellFormed definition hdefinition).2

def Definition.Writes (definition : Definition) (symbol : Symbol) : Prop :=
  ∃ items ∈ definition.body, ∃ item ∈ items, item.Writes symbol

theorem Item.WellFormed.of_writes {item : Item} (h : item.WellFormed) {symbol : Symbol}
    (hwrites : item.Writes symbol) :
    isIdentifier symbol.toList = true ∨ IsTerminal symbol.toList := by
  induction hwrites with
  | reference =>
    cases h with
    | reference hname => exact .inl hname
  | terminal =>
    cases h with
    | terminal hlexeme => exact .inr hlexeme
  | group hitems hitem _ ih =>
    cases h with
    | group hall => exact ih (hall _ hitems _ hitem)

theorem head?_ne_percent {symbol : Symbol}
    (h : isIdentifier symbol.toList = true ∨ IsTerminal symbol.toList) :
    symbol.toList.head? ≠ some '%' := by
  intro hhead
  obtain ⟨cs, hcs⟩ := List.head?_eq_some_iff.1 hhead
  rw [hcs] at h
  rcases h with h | h
  · simp [isIdentifier, isIdentifierStart] at h
  · obtain ⟨c, rest, heq, hc⟩ := h.exists_head
    obtain ⟨rfl, _⟩ := List.cons.inj heq
    simp at hc

theorem head?_madeName (owner : String) (n : Nat) :
    (madeName owner n).toList.head? = some '%' := by
  rw [toList_madeName, List.head?_cons]

theorem ne_madeName_of_head? {symbol : Symbol} (h : symbol.toList.head? ≠ some '%') (owner : String)
    (n : Nat) : symbol ≠ madeName owner n := by
  rintro rfl
  exact h (head?_madeName owner n)

end Written

section Definitions

variable {document : Document} {definition : Definition}

theorem Document.WellFormed.head?_of_writes (h : document.WellFormed)
    (hdefinition : definition ∈ document) {symbol : Symbol} (hwrites : definition.Writes symbol) :
    symbol.toList.head? ≠ some '%' := by
  obtain ⟨items, hitems, item, hitem, hsymbol⟩ := hwrites
  exact head?_ne_percent ((h.items definition hdefinition items hitems item hitem).of_writes hsymbol)

theorem Document.WellFormed.madeName_inj (h : document.WellFormed)
    (hdefinition : definition ∈ document) {other : Definition} (hother : other ∈ document)
    {m n : Nat} (heq : madeName definition.name m = madeName other.name n) :
    definition.name = other.name ∧ m = n :=
  Ebnf.madeName_inj (not_mem_of_isIdentifier (h.names definition hdefinition) rfl rfl)
    (not_mem_of_isIdentifier (h.names other hother) rfl rfl) heq

theorem Document.WellFormed.fresh (h : document.WellFormed) (hdefinition : definition ∈ document) :
    Fresh definition.name definition.Writes where
  number := fun _ _ heq => (h.madeName_inj hdefinition hdefinition heq).2
  apart := fun _ hwrites n =>
    ne_madeName_of_head? (h.head?_of_writes hdefinition hwrites) definition.name n

theorem Document.WellFormed.owns (h : document.WellFormed) (hdefinition : definition ∈ document) :
    Owns definition.name definition.Writes 0 definition.flatBody.flatten definition.made := by
  rw [definition.made_eq_rulesFrom]
  exact owns_choiceFrom (h.fresh hdefinition) definition.body 0
    fun items hitems item hitem _ hsymbol => ⟨items, hitems, item, hitem, hsymbol⟩

theorem Document.WellFormed.within_of_mem_lower (h : document.WellFormed)
    (hdefinition : definition ∈ document) {rule : Rule} (hrule : rule ∈ definition.lower)
    {symbol : Symbol} (hsymbol : symbol ∈ rule.symbols) :
    Within definition.name definition.Writes 0 definition.madeCount symbol := by
  have howns := h.owns hdefinition
  rw [definition.lower_eq_append, List.singleton_append, List.mem_cons] at hrule
  rw [← definition.length_made, ← Nat.zero_add definition.made.length]
  rcases hrule with rfl | hrule
  · exact howns.symbols_within symbol hsymbol
  · obtain ⟨m, _, hm, _, hsymbols⟩ := howns.rules_within rule hrule
    exact (hsymbols symbol hsymbol).mono (Nat.le_refl 0) hm

theorem Document.WellFormed.within_of_made (h : document.WellFormed)
    (hdefinition : definition ∈ document) {other : Definition} (hother : other ∈ document)
    {rule : Rule} (hrule : rule ∈ other.lower) {n : Nat} (hname : rule.name = madeName definition.name n)
    {symbol : Symbol} (hsymbol : symbol ∈ rule.symbols) :
    Within definition.name other.Writes 0 n symbol := by
  rw [other.lower_eq_append, List.singleton_append, List.mem_cons] at hrule
  rcases hrule with rfl | hrule
  · exact absurd hname (madeName_ne_of_isIdentifier (h.names other hother))
  · obtain ⟨m, _, _, hm, hsymbols⟩ := (h.owns hother).rules_within rule hrule
    obtain ⟨howner, rfl⟩ := h.madeName_inj hdefinition hother (hname.symm.trans hm)
    rw [howner]
    exact hsymbols symbol hsymbol

theorem Document.WellFormed.exists_mentioner (h : document.WellFormed)
    (hdefinition : definition ∈ document) {n : Nat} (hpos : 1 ≤ n) (hn : n ≤ definition.madeCount) :
    ∃ parent, mentioners (madeName definition.name n) definition.lower = [parent] ∧
      (parent = definition.name ∨ ∃ m, n < m ∧ m ≤ definition.madeCount ∧
        parent = madeName definition.name m) := by
  have hname : definition.name ≠ madeName definition.name n :=
    madeName_ne_of_isIdentifier (h.names definition hdefinition)
  rw [← definition.length_made, ← Nat.zero_add definition.made.length] at hn ⊢
  rw [definition.lower_eq_append, mentioners_append]
  rcases (h.owns hdefinition).once n hpos hn with ⟨hmem, hnil⟩ | ⟨hmem, m, hnm, hm, hone⟩
  · refine ⟨definition.name, ?_, .inl rfl⟩
    rw [hnil, List.append_nil, mentioners_of_mem hname hmem]
  · -- A later made rule mentions it, so the written one does not.
    refine ⟨_, ?_, .inr ⟨m, hnm, hm, rfl⟩⟩
    have hnot : ∀ rule ∈ [(⟨definition.name, definition.flatBody⟩ : Rule)],
        madeName definition.name n ∉ rule.symbols := List.forall_mem_singleton.2 hmem
    rw [hone, mentioners_eq_nil hnot, List.nil_append]

theorem Document.WellFormed.not_mem_symbols_of_ne (h : document.WellFormed)
    (hdefinition : definition ∈ document) {other : Definition} (hother : other ∈ document)
    (hne : other.name ≠ definition.name) (n : Nat) {rule : Rule} (hrule : rule ∈ other.lower) :
    madeName definition.name n ∉ rule.symbols := by
  intro hmem
  rcases h.within_of_mem_lower hother hrule hmem with hwrites | ⟨m, _, _, heq⟩
  · exact h.head?_of_writes hother hwrites (head?_madeName definition.name n)
  · exact hne (h.madeName_inj hdefinition hother heq).1.symm

theorem Document.WellFormed.mentioners_lower (h : document.WellFormed)
    (hdefinition : definition ∈ document) (n : Nat) :
    mentioners (madeName definition.name n) document.lower =
      mentioners (madeName definition.name n) definition.lower := by
  obtain ⟨before, after, rfl⟩ := List.append_of_mem hdefinition
  have hdistinct := h.distinct
  rw [List.map_append, List.map_cons, List.nodup_middle, List.nodup_cons, List.mem_append,
    not_or] at hdistinct
  obtain ⟨⟨hbefore, hafter⟩, _⟩ := hdistinct
  -- The names are distinct, so on either side of the definition stand others only.
  have hnone : ∀ others : Document, others ⊆ before ++ definition :: after →
      definition.name ∉ others.map Definition.name →
      mentioners (madeName definition.name n) others.lower = [] := by
    intro others hsubset hname
    refine mentioners_eq_nil fun rule hrule => ?_
    obtain ⟨other, hother, hrule⟩ := List.mem_flatMap.1 hrule
    exact h.not_mem_symbols_of_ne hdefinition (hsubset hother)
      (fun heq => hname (heq ▸ List.mem_map_of_mem hother)) n hrule
  have hlower : Document.lower (before ++ definition :: after) =
      Document.lower before ++ (definition.lower ++ Document.lower after) := by
    simp only [Document.lower, List.flatMap_append, List.flatMap_cons]
  rw [hlower, mentioners_append, mentioners_append,
    hnone before (List.subset_append_left _ _) hbefore,
    hnone after (fun other hother => by simp [hother]) hafter, List.nil_append, List.append_nil]

end Definitions

end GrammarCompletion.Ebnf

namespace GrammarCompletion.Grammar

open Ebnf

/-- The grammar is the table of the document: behind each written rule stand the rules made for its
groups and operators in post-order, under names of their own. -/
structure Tabulates (g : Grammar) (document : Document) : Prop where
  rules : g.rules = document.flatMap fun definition =>
    ⟨definition.name, definition.flatBody⟩ :: rulesFrom definition.name 0 definition.composites
  names : g.names = document.flatMap fun definition =>
    definition.name ::
      (List.range definition.madeCount).map fun n => madeName definition.name (n + 1)
  fresh : ∀ definition ∈ document, ∀ n, ∀ other ∈ document,
    madeName definition.name n ≠ other.name ∧ ¬ other.Writes (madeName definition.name n) ∧
      (other.name ≠ definition.name → ∀ m, madeName definition.name n ≠ madeName other.name m)
  closed : ∀ rule ∈ g.rules, ∀ symbol ∈ rule.symbols, symbol.toList.head? = some '%' →
    symbol ∈ g.names
  earlier : ∀ definition ∈ document, ∀ n, ∀ rule ∈ g.rules, rule.name = madeName definition.name n →
    ∀ symbol ∈ rule.symbols, symbol.toList.head? = some '%' →
      ∃ m, 1 ≤ m ∧ m ≤ n ∧ symbol = madeName definition.name m
  parent : ∀ linked, g.link = .ok linked → ∀ definition ∈ document, ∀ n, 1 ≤ n →
    n ≤ definition.madeCount → ∃ parent, linked.parentsOf (madeName definition.name n) = [parent] ∧
      (parent = definition.name ∨
        ∃ m, n < m ∧ m ≤ definition.madeCount ∧ parent = madeName definition.name m)
  unknown : ∀ fault, g.link = .error fault → ∃ name symbol, fault = .unknownReference name symbol ∧
    ∃ definition ∈ document, definition.Writes symbol

section Tables

variable {document : Document} {g : Grammar}

theorem names_of_rules_eq_lower (h : g.rules = document.lower) :
    g.names = document.flatMap fun definition => definition.name ::
      (List.range definition.madeCount).map fun n => madeName definition.name (n + 1) := by
  simp only [names, h, Document.lower, List.map_flatMap, Definition.names_lower]

theorem writes_or_mem_names (hdocument : document.WellFormed) (h : g.rules = document.lower)
    {rule : Rule} (hrule : rule ∈ g.rules) {symbol : Symbol} (hsymbol : symbol ∈ rule.symbols) :
    (∃ definition ∈ document, definition.Writes symbol) ∨ symbol ∈ g.names := by
  rw [h] at hrule
  obtain ⟨definition, hdefinition, hrule⟩ := List.mem_flatMap.1 hrule
  rcases hdocument.within_of_mem_lower hdefinition hrule hsymbol with hwrites | ⟨m, hpos, hm, rfl⟩
  · exact .inl ⟨definition, hdefinition, hwrites⟩
  · rw [names_of_rules_eq_lower h]
    refine .inr (List.mem_flatMap.2 ⟨definition, hdefinition, List.mem_cons_of_mem _ ?_⟩)
    exact List.mem_map.2 ⟨m - 1, List.mem_range.2 (by omega), by rw [Nat.sub_add_cancel hpos]⟩

theorem tabulates_of_rules_eq_lower (hdocument : document.WellFormed)
    (h : g.rules = document.lower) : g.Tabulates document where
  rules := by
    rw [h, Document.lower]
    exact congrArg document.flatMap (funext Definition.lower_eq_rulesFrom)
  names := names_of_rules_eq_lower h
  fresh := by
    intro definition hdefinition n other hother
    refine ⟨(madeName_ne_of_isIdentifier (hdocument.names other hother)).symm, ?_, ?_⟩
    · exact fun hwrites => hdocument.head?_of_writes hother hwrites (head?_madeName _ n)
    · exact fun hne m heq => hne (hdocument.madeName_inj hdefinition hother heq).1.symm
  closed := by
    intro rule hrule symbol hsymbol hhead
    rcases writes_or_mem_names hdocument h hrule hsymbol with ⟨definition, hdefinition, hwrites⟩ | hmem
    · exact absurd hhead (hdocument.head?_of_writes hdefinition hwrites)
    · exact hmem
  earlier := by
    intro definition hdefinition n rule hrule hname symbol hsymbol hhead
    rw [h] at hrule
    obtain ⟨other, hother, hrule⟩ := List.mem_flatMap.1 hrule
    rcases hdocument.within_of_made hdefinition hother hrule hname hsymbol with hwrites | hmade
    · exact absurd hhead (hdocument.head?_of_writes hother hwrites)
    · exact hmade
  parent := by
    intro linked hlink definition hdefinition n hpos hn
    obtain ⟨parent, hparent, hwhich⟩ := hdocument.exists_mentioner hdefinition hpos hn
    refine ⟨parent, ?_, hwhich⟩
    rw [parentsOf_eq_filter hlink, h, ← hparent, ← hdocument.mentioners_lower hdefinition]
    rfl
  unknown := by
    intro fault hfault
    obtain ⟨name, symbol, hfirst, rfl⟩ := firstUnknown_of_link_eq_error hfault
    obtain ⟨⟨alternative, ⟨rule, hrule, _, halternative⟩, hsymbol⟩, hunknown, _⟩ := hfirst.mentions
    have hmem : symbol ∈ rule.symbols := List.mem_flatten.2 ⟨alternative, halternative, hsymbol⟩
    exact ⟨name, symbol, rfl, (writes_or_mem_names hdocument h hrule hmem).resolve_right hunknown⟩

end Tables

theorem wellFormed_of_parse {text : String} {document : Document} {g : Grammar}
    (hparse : parse text = .ok document) (hlower : document.lower = g.rules) :
    document.WellFormed := by
  obtain ⟨tokens, _, _, _, hspells, _⟩ := renders_of_parse hparse
  exact Document.wellFormed_of_spellsAll hspells (hlower ▸ g.distinct)

/-- The grammar of a text is the table of the document that the text writes. -/
theorem ofText_tabulates {source text : String} {g : Grammar} (h : ofText source text = .ok g) :
    ∃ document, parse text = .ok document ∧ document.Renders IsLayout text.toList ∧
      g.Tabulates document := by
  obtain ⟨document, hparse, hlower, _⟩ := ofText_eq_ok_iff.1 h
  exact ⟨document, hparse, renders_of_parse hparse,
    tabulates_of_rules_eq_lower (wellFormed_of_parse hparse hlower) hlower.symm⟩

def nestedText : String := "a ::= ('x' b+)* | b? b ::= 'y'"

def nestedGrammar : Grammar where
  rules := [⟨"a", [["%a[3]"], ["%a[4]"]]⟩, ⟨"%a[1]", [["b", "%a[1]"], ["b"]]⟩,
    ⟨"%a[2]", [["'x'", "%a[1]"]]⟩, ⟨"%a[3]", [["%a[2]", "%a[3]"], []]⟩,
    ⟨"%a[4]", [["b"], []]⟩, ⟨"b", [["'y'"]]⟩]
  distinct := by decide

theorem ofText_nestedText : ofText inlineSource nestedText = .ok nestedGrammar := by
  have hlower : (parse nestedText).toOption.map Document.lower = some nestedGrammar.rules := by
    decide +kernel
  cases hparse : parse nestedText with
  | error fault => simp [hparse, Except.toOption] at hlower
  | ok document =>
    rw [hparse] at hlower
    exact ofText_eq_ok_iff.2 ⟨document, hparse, Option.some.inj hlower, by decide⟩

theorem ofText_tabulates_nested :
    ofText inlineSource nestedText = .ok nestedGrammar ∧
      ∃ document, parse nestedText = .ok document ∧
        document.Renders IsLayout nestedText.toList ∧ nestedGrammar.Tabulates document :=
  ⟨ofText_nestedText, ofText_tabulates ofText_nestedText⟩

end GrammarCompletion.Grammar
