import GrammarCompletion.Proofs.Ebnf.MadeRules
import GrammarCompletion.Proofs.Ebnf.Meaning
import GrammarCompletion.Proofs.Grammar.Derivation

/-! Lowering keeps the language of a document. A table realises a phrase by symbols when the rules
of these symbols spell the phrase out; lowering a well-formed document gives such a table, and
over any such table the derivable words of a symbol are the words its phrase stands for. -/

namespace GrammarCompletion.Ebnf

/-- In the table the symbols stand for the phrase. An item and a choice take one symbol. -/
inductive Realises (rules : List Rule) : Phrase → List Symbol → Prop where
  | reference {name : String} (h : isIdentifier name.toList = true) :
      Realises rules (.item (.reference name none)) [name]
  | terminal {lexeme : String} (h : IsTerminal lexeme.toList) :
      Realises rules (.item (.terminal lexeme none)) [lexeme]
  | group {alternatives : List (List Item)} {symbol : Symbol}
      (body : Realises rules (.choice alternatives) [symbol]) :
      Realises rules (.item (.group alternatives none)) [symbol]
  | repeated {item : Item} {r : Repetition} {inner symbol : Symbol}
      (hr : item.repetition = some r) (bare : Realises rules (.item item.bare) [inner])
      (h : ∀ alternative, Produces rules symbol alternative ↔
        alternative ∈ r.alternatives inner symbol) :
      Realises rules (.item item) [symbol]
  | nil : Realises rules (.sequence []) []
  | cons {item : Item} {items : List Item} {symbol : Symbol} {symbols : List Symbol}
      (head : Realises rules (.item item) [symbol])
      (tail : Realises rules (.sequence items) symbols) :
      Realises rules (.sequence (item :: items)) (symbol :: symbols)
  | choice {alternatives : List (List Item)} {symbol : Symbol} {flat : List Alternative}
      (key : symbol ∈ rules.map Rule.name)
      (body : List.Forall₂ (fun items => Realises rules (.sequence items)) alternatives flat)
      (h : ∀ alternative, Produces rules symbol alternative ↔ alternative ∈ flat) :
      Realises rules (.choice alternatives) [symbol]

/-- The table spells out every rule of the document, and nothing else goes by an identifier or
by the lexeme of a terminal. -/
structure Flattens (document : Document) (rules : List Rule) : Prop where
  body : ∀ definition ∈ document, Realises rules (.choice definition.body) [definition.name]
  written : ∀ name ∈ rules.map Rule.name, isIdentifier name.toList = true →
    name ∈ document.map Definition.name
  terminal : ∀ name ∈ rules.map Rule.name, ¬ IsTerminal name.toList

section Simulation

variable {document : Document} {rules : List Rule}

theorem derives_repetition {r : Repetition} {inner symbol : Symbol}
    (h : ∀ alternative, Produces rules symbol alternative ↔
      alternative ∈ r.alternatives inner symbol)
    {words : List (List Symbol)} (hcount : r.Admits words.length)
    (hwords : ∀ word ∈ words, Derives rules [inner] word) :
    Derives rules [symbol] words.flatten := by
  have hmore : ∀ {word rest}, [inner, symbol] ∈ r.alternatives inner symbol →
      Derives rules [inner] word → Derives rules [symbol] rest →
      Derives rules [symbol] (word ++ rest) := by
    intro word rest hmem hword hrest
    exact ((h _).2 hmem).derives.trans (hword.append hrest)
  induction words with
  | nil =>
    have hempty : [] ∈ r.alternatives inner symbol := by
      cases r with
      | optional | zeroOrMore => simp [Repetition.alternatives]
      | oneOrMore => simp [Repetition.Admits] at hcount
    exact ((h []).2 hempty).derives
  | cons word words ih =>
    have hword := hwords word List.mem_cons_self
    have hrest := fun w hw => hwords w (List.mem_cons_of_mem word hw)
    rw [List.flatten_cons]
    cases r with
    | optional =>
      obtain rfl : words = [] := by simpa [Repetition.Admits] using hcount
      have hone := ((h [inner]).2 (by simp [Repetition.alternatives])).derives
      simpa only [List.flatten_nil, List.append_nil] using hone.trans hword
    | zeroOrMore =>
      exact hmore (by simp [Repetition.alternatives]) hword (ih trivial hrest)
    | oneOrMore =>
      cases words with
      | nil =>
        have hone := ((h [inner]).2 (by simp [Repetition.alternatives])).derives
        simpa only [List.flatten_nil, List.append_nil] using hone.trans hword
      | cons next words =>
        exact hmore (by simp [Repetition.alternatives]) hword
          (ih (by simp [Repetition.Admits]) hrest)

/-- What a phrase stands for, the symbols that realise it derive. -/
theorem Flattens.derives_of_yields (hflat : Flattens document rules) {phrase : Phrase}
    {word : List Symbol} (h : Yields document phrase word) {symbols : List Symbol}
    (hreal : Realises rules phrase symbols) : Derives rules symbols word := by
  induction h generalizing symbols with
  | token =>
    cases hreal with
    | reference => exact .refl
    | repeated hr => simp [Item.repetition] at hr
  | reference hdefinition _ ih =>
    cases hreal with
    | reference => exact ih (hflat.body _ hdefinition)
    | repeated hr => simp [Item.repetition] at hr
  | terminal lexeme =>
    cases hreal with
    | terminal => exact .refl
    | repeated hr => simp [Item.repetition] at hr
  | group _ ih =>
    cases hreal with
    | group hbody => exact ih hbody
    | repeated hr => simp [Item.repetition] at hr
  | repeated hr hcount _ ih =>
    cases hreal with
    | repeated hr' hbare halternatives =>
      obtain rfl := Option.some.inj (hr.symm.trans hr')
      exact derives_repetition halternatives hcount fun word hword => ih word hword hbare
    | reference | terminal | group => simp [Item.repetition] at hr
  | nil =>
    cases hreal
    exact .refl
  | cons _ _ ihhead ihtail =>
    cases hreal with
    | cons hhead htail => exact (ihhead hhead).append (ihtail htail)
  | choice hitems _ ih =>
    cases hreal with
    | choice _ hbody halternatives =>
      obtain ⟨alternative, hmem, halternative⟩ := exists_mem_right_of_forall₂ hbody hitems
      exact ((halternatives alternative).2 hmem).derives.trans (ih halternative)

def StandsFor (document : Document) (rules : List Rule) (symbol : Symbol)
    (word : List Symbol) : Prop :=
  ∀ item, Realises rules (.item item) [symbol] → Yields document (.item item) word

inductive StandFor (document : Document) (rules : List Rule) :
    List Symbol → List Symbol → Prop where
  | nil : StandFor document rules [] []
  | cons {symbol : Symbol} {symbols first rest : List Symbol}
      (head : StandsFor document rules symbol first)
      (tail : StandFor document rules symbols rest) :
      StandFor document rules (symbol :: symbols) (first ++ rest)

namespace StandFor

theorem append {u v word word' : List Symbol} (hu : StandFor document rules u word)
    (hv : StandFor document rules v word') : StandFor document rules (u ++ v) (word ++ word') := by
  induction hu with
  | nil => exact hv
  | cons hhead _ ih =>
    rw [List.cons_append, List.append_assoc]
    exact .cons hhead ih

theorem exists_of_append {u v word : List Symbol} (h : StandFor document rules (u ++ v) word) :
    ∃ first rest, word = first ++ rest ∧ StandFor document rules u first ∧
      StandFor document rules v rest := by
  induction u generalizing word with
  | nil => exact ⟨[], word, rfl, .nil, h⟩
  | cons symbol u ih =>
    cases h with
    | cons hhead htail =>
      obtain ⟨first, rest, rfl, hu, hv⟩ := ih htail
      exact ⟨_, rest, (List.append_assoc ..).symm, .cons hhead hu, hv⟩

theorem singleton {symbol : Symbol} {word : List Symbol}
    (h : StandsFor document rules symbol word) : StandFor document rules [symbol] word := by
  simpa only [List.append_nil] using cons h nil

theorem of_singleton {symbol : Symbol} {word : List Symbol}
    (h : StandFor document rules [symbol] word) : StandsFor document rules symbol word := by
  cases h with
  | cons hhead htail =>
    cases htail
    rwa [List.append_nil]

theorem yields_sequence {symbols word : List Symbol} (h : StandFor document rules symbols word)
    {items : List Item} (hreal : Realises rules (.sequence items) symbols) :
    Yields document (.sequence items) word := by
  induction h generalizing items with
  | nil =>
    cases hreal
    exact .nil
  | cons hhead _ ih =>
    cases hreal with
    | cons hitem hitems => exact .cons (hhead _ hitem) (ih hitems)

theorem yields_choice {symbol : Symbol} {alternative : Alternative} {word : List Symbol}
    (h : StandFor document rules alternative word) (hproduces : Produces rules symbol alternative)
    {alternatives : List (List Item)} (hreal : Realises rules (.choice alternatives) [symbol]) :
    Yields document (.choice alternatives) word := by
  cases hreal with
  | choice _ hbody halternatives =>
    obtain ⟨items, hmem, hitems⟩ :=
      exists_mem_left_of_forall₂ hbody ((halternatives alternative).1 hproduces)
    exact .choice hmem (h.yields_sequence hitems)

end StandFor

theorem yields_of_repetition {item : Item} {r : Repetition} {inner symbol : Symbol}
    (hr : item.repetition = some r) (hbare : Realises rules (.item item.bare) [inner])
    (hself : Realises rules (.item item) [symbol]) {alternative : Alternative}
    (hmem : alternative ∈ r.alternatives inner symbol) {word : List Symbol}
    (h : StandFor document rules alternative word) : Yields document (.item item) word := by
  rw [yields_repeated_iff hr]
  have hone : ∀ {w}, StandFor document rules [inner] w →
      ∃ words : List (List Symbol), w = words.flatten ∧ words.length = 1 ∧
        ∀ v ∈ words, Yields document (.item item.bare) v := by
    intro w hw
    refine ⟨[w], by simp, rfl, ?_⟩
    simpa using hw.of_singleton _ hbare
  have hmore : ∀ {w}, StandFor document rules [inner, symbol] w →
      ∃ words : List (List Symbol), w = words.flatten ∧ 1 ≤ words.length ∧
        ∀ v ∈ words, Yields document (.item item.bare) v := by
    intro w hw
    obtain ⟨first, rest, rfl, hfirst, hrest⟩ :=
      StandFor.exists_of_append (u := [inner]) hw
    obtain ⟨words, rfl, _, hwords⟩ := (yields_repeated_iff hr).1 (hrest.of_singleton _ hself)
    refine ⟨first :: words, rfl, by simp, ?_⟩
    exact List.forall_mem_cons.2 ⟨hfirst.of_singleton _ hbare, hwords⟩
  have hnone : ∀ {w}, StandFor document rules [] w → w = [] := by
    intro w hw
    cases hw
    rfl
  cases r with
  | optional =>
    rcases List.mem_pair.1 hmem with rfl | rfl
    · obtain ⟨words, hword, hlen, hwords⟩ := hone h
      exact ⟨words, hword, Nat.le_of_eq hlen, hwords⟩
    · exact ⟨[], hnone h, Nat.zero_le 1, by simp⟩
  | zeroOrMore =>
    rcases List.mem_pair.1 hmem with rfl | rfl
    · obtain ⟨words, hword, _, hwords⟩ := hmore h
      exact ⟨words, hword, trivial, hwords⟩
    · exact ⟨[], hnone h, trivial, by simp⟩
  | oneOrMore =>
    rcases List.mem_pair.1 hmem with rfl | rfl
    · exact hmore h
    · obtain ⟨words, hword, hlen, hwords⟩ := hone h
      exact ⟨words, hword, Nat.le_of_eq hlen.symm, hwords⟩

theorem Flattens.standsFor_of_produces (hflat : Flattens document rules) {symbol : Symbol}
    {alternative : Alternative} (hproduces : Produces rules symbol alternative)
    {word : List Symbol} (h : StandFor document rules alternative word) :
    StandsFor document rules symbol word := by
  intro item hitem
  cases hitem with
  | reference hname =>
    obtain ⟨definition, hdefinition, rfl⟩ :=
      List.mem_map.1 (hflat.written symbol hproduces.mem_names hname)
    exact .reference hdefinition (h.yields_choice hproduces (hflat.body definition hdefinition))
  | terminal hlexeme => exact absurd hlexeme (hflat.terminal symbol hproduces.mem_names)
  | group hbody => exact .group (h.yields_choice hproduces hbody)
  | repeated hr hbare halternatives =>
    exact yields_of_repetition hr hbare (.repeated hr hbare halternatives)
      ((halternatives alternative).1 hproduces) h

theorem Flattens.standFor_of_derives (hflat : Flattens document rules)
    {symbols symbols' word : List Symbol} (hderives : Derives rules symbols symbols')
    (h : StandFor document rules symbols' word) : StandFor document rules symbols word := by
  induction hderives using Relation.ReflTransGen.head_induction_on with
  | refl => exact h
  | head hstep _ ih =>
    -- The word splits as the alternative in its place does, and its symbol stands for the middle.
    obtain ⟨front, back, hproduces⟩ := hstep
    obtain ⟨word, last, rfl, hword, hback⟩ := ih.exists_of_append
    obtain ⟨first, middle, rfl, hfront, hmiddle⟩ := hword.exists_of_append
    have hsymbol := StandFor.singleton (hflat.standsFor_of_produces hproduces hmiddle)
    simpa only [List.append_assoc, List.singleton_append] using
      (hfront.append hsymbol).append hback

theorem Repetition.alternatives_ne_nil (r : Repetition) (inner symbol : Symbol) :
    r.alternatives inner symbol ≠ [] := by
  cases r <;> exact List.cons_ne_nil _ _

theorem Flattens.standsFor_self (hflat : Flattens document rules) {symbol : Symbol}
    (hsymbol : symbol ∉ rules.map Rule.name) : StandsFor document rules symbol [symbol] := by
  intro item hitem
  cases hitem with
  | reference =>
    refine .token fun hmem => ?_
    obtain ⟨definition, hdefinition, rfl⟩ := List.mem_map.1 hmem
    cases hflat.body definition hdefinition with
    | choice hkey => exact hsymbol hkey
  | terminal => exact .terminal symbol
  | group hbody =>
    cases hbody with
    | choice hkey => exact absurd hkey hsymbol
  | repeated _ _ halternatives =>
    obtain ⟨alternative, hmem⟩ :=
      List.exists_mem_of_ne_nil _ (Repetition.alternatives_ne_nil _ _ symbol)
    exact absurd ((halternatives alternative).2 hmem).mem_names hsymbol

theorem Flattens.standFor_self (hflat : Flattens document rules) {word : List Symbol}
    (hword : ∀ symbol ∈ word, symbol ∉ rules.map Rule.name) :
    StandFor document rules word word := by
  induction word with
  | nil => exact .nil
  | cons symbol word ih =>
    have hhead := hflat.standsFor_self (hword symbol List.mem_cons_self)
    exact .cons hhead (ih fun s hs => hword s (List.mem_cons_of_mem _ hs))

theorem Flattens.yields_iff_derives (hflat : Flattens document rules) {item : Item}
    {symbol : Symbol} (hreal : Realises rules (.item item) [symbol]) {word : List Symbol}
    (hword : ∀ s ∈ word, s ∉ rules.map Rule.name) :
    Yields document (.item item) word ↔ Derives rules [symbol] word := by
  constructor
  · intro h
    exact hflat.derives_of_yields h hreal
  · intro h
    exact (hflat.standFor_of_derives h (hflat.standFor_self hword)).of_singleton item hreal

end Simulation

section Lowering

variable {owner : String} {rules : List Rule}

theorem realises_repeated (hnodup : (rules.map Rule.name).Nodup) (item : Item) {inner : Symbol}
    (hbare : Realises rules (.item item.bare) [inner]) {made : Made}
    (hsub : (repeated owner item.repetition inner made).2.rules ⊆ rules) :
    Realises rules (.item item) [(repeated owner item.repetition inner made).1] := by
  cases hr : item.repetition with
  | none => rwa [Item.bare_eq_self hr] at hbare
  | some r =>
    rw [hr] at hsub
    refine .repeated hr hbare fun alternative => ?_
    have hrule : ⟨madeName owner (made.count + 1),
        r.alternatives inner (madeName owner (made.count + 1))⟩ ∈ rules :=
      hsub (List.mem_append_right _ List.mem_cons_self)
    exact produces_iff_of_mem hnodup hrule

theorem realises_choice (hnodup : (rules.map Rule.name).Nodup)
    {alternatives : List (List Item)} {rule : Rule} (hrule : rule ∈ rules)
    (hbody : List.Forall₂ (fun items => Realises rules (.sequence items)) alternatives
      rule.alternatives) : Realises rules (.choice alternatives) [rule.name] :=
  .choice (List.mem_map_of_mem hrule) hbody fun _ => produces_iff_of_mem hnodup hrule

mutual

theorem Item.realises_lower (hnodup : (rules.map Rule.name).Nodup) :
    ∀ (item : Item) (made : Made), item.WellFormed → (item.lower owner made).2.rules ⊆ rules →
    Realises rules (.item item) [(item.lower owner made).1]
  | .reference name repetition, made, hitem, hsub => by
    have hname : isIdentifier name.toList = true := by
      cases hitem
      assumption
    exact realises_repeated hnodup (.reference name repetition) (.reference hname) hsub
  | .terminal lexeme repetition, made, hitem, hsub => by
    have hlexeme : IsTerminal lexeme.toList := by
      cases hitem
      assumption
    exact realises_repeated hnodup (.terminal lexeme repetition) (.terminal hlexeme) hsub
  | .group alternatives repetition, made, hitem, hsub => by
    have hitems : ∀ items ∈ alternatives, ∀ item ∈ items, item.WellFormed := by
      cases hitem
      assumption
    have hmade := List.Subset.trans (makesAll_repeated repetition _ _).subset hsub
    have hrule := hmade (List.mem_append_right _ List.mem_cons_self)
    have hbody := realises_lowerAlternatives hnodup alternatives made hitems
      (List.Subset.trans (List.subset_append_left _ _) hmade)
    exact realises_repeated hnodup (.group alternatives repetition)
      (.group (realises_choice hnodup hrule hbody)) hsub

theorem realises_lowerSequence (hnodup : (rules.map Rule.name).Nodup) :
    ∀ (items : List Item) (made : Made), (∀ item ∈ items, item.WellFormed) →
    (lowerSequence owner items made).2.rules ⊆ rules →
    Realises rules (.sequence items) (lowerSequence owner items made).1
  | [], _, _, _ => .nil
  | item :: items, made, hitems, hsub => by
    have hrest := realises_lowerSequence hnodup items (item.lower owner made).2
      (fun i hi => hitems i (List.mem_cons_of_mem _ hi)) hsub
    have hitem := item.realises_lower hnodup made (hitems item List.mem_cons_self)
      (List.Subset.trans (makesAll_lowerSequence items _).subset hsub)
    exact .cons hitem hrest

theorem realises_lowerAlternatives (hnodup : (rules.map Rule.name).Nodup) :
    ∀ (alternatives : List (List Item)) (made : Made),
    (∀ items ∈ alternatives, ∀ item ∈ items, item.WellFormed) →
    (lowerAlternatives owner alternatives made).2.rules ⊆ rules →
    List.Forall₂ (fun items => Realises rules (.sequence items)) alternatives
      (lowerAlternatives owner alternatives made).1
  | [], _, _, _ => .nil
  | items :: rest, made, hitems, hsub => by
    have hrest := realises_lowerAlternatives hnodup rest (lowerSequence owner items made).2
      (fun is his => hitems is (List.mem_cons_of_mem _ his)) hsub
    have hfirst := realises_lowerSequence hnodup items made (hitems items List.mem_cons_self)
      (List.Subset.trans (makesAll_lowerAlternatives rest _).subset hsub)
    exact .cons hfirst hrest

end

theorem Definition.realises_lower (hnodup : (rules.map Rule.name).Nodup) {definition : Definition}
    (hitems : ∀ items ∈ definition.body, ∀ item ∈ items, item.WellFormed)
    (hsub : definition.lower ⊆ rules) :
    Realises rules (.choice definition.body) [definition.name] := by
  rw [definition.lower_eq, List.cons_subset] at hsub
  exact realises_choice hnodup hsub.1
    (realises_lowerAlternatives hnodup definition.body {} hitems hsub.2)

end Lowering

section Language

theorem not_isTerminal_of_isIdentifier {cs : List Char} (h : isIdentifier cs = true) :
    ¬ IsTerminal cs := by
  intro hterminal
  obtain ⟨c, rest, rfl, hc⟩ := hterminal.exists_head
  rcases hc with rfl | rfl | rfl | rfl <;> simp [isIdentifier, isIdentifierStart] at h

theorem not_isTerminal_madeName (owner : String) (n : Nat) :
    ¬ IsTerminal (madeName owner n).toList := by
  intro hterminal
  obtain ⟨c, rest, heq, hc⟩ := hterminal.exists_head
  rw [toList_madeName] at heq
  obtain ⟨rfl, _⟩ := List.cons.inj heq
  simp at hc

variable {document : Document}

theorem Document.flattens_lower (hdocument : document.WellFormed) :
    Flattens document document.lower where
  body := by
    intro definition hdefinition
    refine Definition.realises_lower
      (document.nodup_names_lower hdocument.names hdocument.distinct)
      (hdocument.items definition hdefinition) ?_
    intro rule hrule
    exact List.mem_flatMap.2 ⟨definition, hdefinition, hrule⟩
  written := by
    intro name hname hidentifier
    rcases Document.mem_names_or_madeName hname with hname | ⟨owner, n, hn⟩
    · exact hname
    · exact absurd hn (madeName_ne_of_isIdentifier hidentifier)
  terminal := by
    intro name hname
    rcases Document.mem_names_or_madeName hname with hname | ⟨owner, n, rfl⟩
    · obtain ⟨definition, hdefinition, rfl⟩ := List.mem_map.1 hname
      exact not_isTerminal_of_isIdentifier (hdocument.names definition hdefinition)
    · exact not_isTerminal_madeName owner n

/-- Over the flat rules of a document, a rule name derives exactly the words that the rule stands
for in the document. -/
theorem yields_iff_derives_lower (hdocument : document.WellFormed) {name : String}
    (hname : name ∈ document.map Definition.name) {word : List Symbol}
    (hword : ∀ symbol ∈ word, symbol ∉ document.lower.map Rule.name) :
    Yields document (.item (.reference name none)) word ↔
      Derives document.lower [name] word := by
  obtain ⟨definition, hdefinition, rfl⟩ := List.mem_map.1 hname
  exact (Document.flattens_lower hdocument).yields_iff_derives
    (.reference (hdocument.names definition hdefinition)) hword

def signItem : Item := .group [[.terminal "'+'" none], [.terminal "'-'" none]] none

def sumDocument : Document :=
  [⟨"sum", [[.reference "NUMBER" none,
    .group [[signItem, .reference "NUMBER" none]] (some .zeroOrMore)]]⟩]

theorem wellFormed_sumDocument : sumDocument.WellFormed where
  names := by
    simp only [sumDocument, List.forall_mem_singleton]
    decide
  distinct := by simp [sumDocument]
  items := by
    have hplus : (Item.terminal "'+'" none).WellFormed := .terminal (.inl (.inr ⟨['+'], rfl, rfl⟩))
    have hminus : (Item.terminal "'-'" none).WellFormed := .terminal (.inl (.inr ⟨['-'], rfl, rfl⟩))
    have hsign : signItem.WellFormed := .group (by simpa using ⟨hplus, hminus⟩)
    have hnumber : (Item.reference "NUMBER" none).WellFormed := .reference (by decide)
    have hmore : (Item.group [[signItem, .reference "NUMBER" none]]
      (some .zeroOrMore)).WellFormed := .group (by simpa using ⟨hsign, hnumber⟩)
    simpa [sumDocument] using ⟨hnumber, hmore⟩

theorem derives_sum :
    sumDocument.WellFormed ∧ "sum" ∈ sumDocument.map Definition.name ∧
      Derives sumDocument.lower ["sum"] ["NUMBER", "'+'", "NUMBER"] := by
  have hnumber : Yields sumDocument (.item (.reference "NUMBER" none)) ["NUMBER"] :=
    .token (by decide)
  have hsign : Yields sumDocument (.item signItem) ["'+'"] :=
    .group (.choice List.mem_cons_self (.cons (.terminal "'+'") .nil))
  have hmore : Yields sumDocument (.item (.group [[signItem, .reference "NUMBER" none]] none))
      ["'+'", "NUMBER"] :=
    .group (.choice List.mem_cons_self (.cons hsign (.cons hnumber .nil)))
  have hloop : Yields sumDocument (.item (.group [[signItem, .reference "NUMBER" none]]
      (some .zeroOrMore))) [["'+'", "NUMBER"]].flatten :=
    .repeated rfl trivial (by simpa [Item.bare] using hmore)
  have hname : "sum" ∈ sumDocument.map Definition.name := by simp [sumDocument]
  refine ⟨wellFormed_sumDocument, hname, ?_⟩
  apply (yields_iff_derives_lower wellFormed_sumDocument hname (by decide)).1
  exact .reference List.mem_cons_self
    (.choice List.mem_cons_self (.cons hnumber (.cons hloop .nil)))

end Language

end GrammarCompletion.Ebnf
