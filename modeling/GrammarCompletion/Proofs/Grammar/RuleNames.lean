import GrammarCompletion.Proofs.Ebnf.Acceptance
import GrammarCompletion.Proofs.Ebnf.MadeRules
import GrammarCompletion.Proofs.Grammar.MadeRules
import GrammarCompletion.Proofs.Grammar.Source

/-! What a text in the notation can do wrong. It may define nothing, or define a name again; the first
name defined again is reported, whatever was made for the definitions in front of it, and a made name
never is. Text without either fault gives a grammar. -/

namespace GrammarCompletion

section Repetition

variable {seen names : List String} {x : String}

theorem firstRepeated?_append_cons {before : List String} (after : List String)
    (hnodup : before.Nodup) (hfresh : ∀ name ∈ before, name ∉ seen) (hx : x ∈ before ∨ x ∈ seen) :
    firstRepeated? seen (before ++ x :: after) = some x := by
  induction before generalizing seen with
  | nil =>
    have hseen : x ∈ seen := hx.resolve_left List.not_mem_nil
    rw [List.nil_append, firstRepeated?, if_pos hseen]
  | cons name before ih =>
    rw [List.nodup_cons] at hnodup
    rw [List.forall_mem_cons] at hfresh
    rw [List.cons_append, firstRepeated?, if_neg hfresh.1]
    refine ih hnodup.2 ?_ ?_
    · intro other hother hmem
      rcases List.mem_cons.1 hmem with rfl | hmem
      · exact hnodup.1 hother
      · exact hfresh.2 other hother hmem
    · rw [List.mem_cons, or_assoc, or_left_comm] at hx
      rwa [List.mem_cons]

theorem exists_of_firstRepeated?_eq_some (h : firstRepeated? seen names = some x) :
    ∃ before after, names = before ++ x :: after ∧ before.Nodup ∧ (∀ name ∈ before, name ∉ seen) ∧
      (x ∈ before ∨ x ∈ seen) := by
  induction names generalizing seen with
  | nil => simp [firstRepeated?] at h
  | cons name names ih =>
    by_cases hname : name ∈ seen
    · rw [firstRepeated?, if_pos hname] at h
      obtain rfl := Option.some.inj h
      exact ⟨[], names, rfl, List.nodup_nil, by simp, .inr hname⟩
    · rw [firstRepeated?, if_neg hname] at h
      obtain ⟨before, after, rfl, hnodup, hfresh, hx⟩ := ih h
      have hnew : name ∉ before := fun hmem => hfresh name hmem List.mem_cons_self
      refine ⟨name :: before, after, rfl, List.nodup_cons.2 ⟨hnew, hnodup⟩, ?_, ?_⟩
      · rw [List.forall_mem_cons]
        exact ⟨hname, fun other hother hseen => hfresh other hother (List.mem_cons_of_mem _ hseen)⟩
      · rw [List.mem_cons] at hx ⊢
        rwa [or_assoc, or_left_comm]

end Repetition

namespace Ebnf

variable {document : Document} {x : String}

/-- Of the definitions that repeat the name of an earlier one, the first has this name. -/
def Document.RepeatsFirst (document : Document) (x : String) : Prop :=
  ∃ before definition after, document = before ++ definition :: after ∧ definition.name = x ∧
    x ∈ before.map Definition.name ∧ (before.map Definition.name).Nodup

theorem Document.repeatsFirst_of_names {before after : List String}
    (h : document.map Definition.name = before ++ x :: after) (hmem : x ∈ before)
    (hnodup : before.Nodup) : document.RepeatsFirst x := by
  obtain ⟨front, back, rfl, rfl, hback⟩ := List.map_eq_append_iff.1 h
  obtain ⟨definition, rest, rfl, hname, _⟩ := List.map_eq_cons_iff.1 hback
  exact ⟨front, definition, rest, rfl, hname, hmem, hnodup⟩

theorem Document.exists_repeatsFirst (h : ¬ (document.map Definition.name).Nodup) :
    ∃ x, document.RepeatsFirst x := by
  have hrepeated : firstRepeated? [] (document.map Definition.name) ≠ none :=
    fun hnone => h (firstRepeated?_eq_none_iff.1 hnone).1
  obtain ⟨x, hx⟩ := Option.ne_none_iff_exists'.1 hrepeated
  obtain ⟨before, after, hnames, hnodup, _, hmem⟩ := exists_of_firstRepeated?_eq_some hx
  exact ⟨x, repeatsFirst_of_names hnames (hmem.resolve_right List.not_mem_nil) hnodup⟩

theorem Document.RepeatsFirst.not_nodup (h : document.RepeatsFirst x) :
    ¬ (document.map Definition.name).Nodup := by
  obtain ⟨before, definition, after, rfl, rfl, hmem, _⟩ := h
  rw [List.map_append, List.map_cons, List.nodup_middle, List.nodup_cons, List.mem_append]
  exact fun hnodup => hnodup.1 (.inl hmem)

theorem Document.mem_names_lower {name : String} (h : name ∈ document.map Definition.name) :
    name ∈ document.lower.map Rule.name := by
  obtain ⟨definition, hdefinition, rfl⟩ := List.mem_map.1 h
  rw [Document.lower, List.map_flatMap, List.mem_flatMap]
  exact ⟨definition, hdefinition, by simp [definition.lower_eq]⟩

/-- In the flat table the same name is the first that is repeated: the rules made for the definitions
in front of it share no name. -/
theorem Document.RepeatsFirst.firstRepeated? (h : document.RepeatsFirst x)
    (hnames : ∀ definition ∈ document, isIdentifier definition.name.toList = true) :
    firstRepeated? [] (document.lower.map Rule.name) = some x := by
  obtain ⟨before, definition, after, rfl, rfl, hmem, hnodup⟩ := h
  have hbefore : ∀ other ∈ before, isIdentifier other.name.toList = true :=
    fun other hother => hnames other (List.mem_append_left _ hother)
  have hlower : (Document.lower (before ++ definition :: after)).map Rule.name =
      (Document.lower before).map Rule.name ++
        definition.name :: (definition.made ++ Document.lower after).map Rule.name := by
    simp only [Document.lower, List.flatMap_append, List.flatMap_cons, definition.lower_eq,
      List.map_append, List.map_cons, List.cons_append]
  rw [hlower]
  exact firstRepeated?_append_cons _ (Document.nodup_names_lower hbefore hnodup) (by simp)
    (.inl (Document.mem_names_lower hmem))

theorem Document.firstRepeated?_lower_iff
    (hnames : ∀ definition ∈ document, isIdentifier definition.name.toList = true) :
    firstRepeated? [] (document.lower.map Rule.name) = some x ↔ document.RepeatsFirst x := by
  refine ⟨?_, fun h => h.firstRepeated? hnames⟩
  intro h
  have hnodup : ¬ (document.map Definition.name).Nodup := by
    intro hnodup
    have hnone : GrammarCompletion.firstRepeated? [] (document.lower.map Rule.name) = none :=
      firstRepeated?_eq_none_iff.2 ⟨Document.nodup_names_lower hnames hnodup, by simp⟩
    rw [hnone] at h
    exact Option.some_ne_none x h.symm
  obtain ⟨y, hy⟩ := Document.exists_repeatsFirst hnodup
  rw [Option.some.inj (h.symm.trans (hy.firstRepeated? hnames))]
  exact hy

theorem Document.lower_eq_nil_iff : document.lower = [] ↔ document = [] := by
  cases document with
  | nil => simp [Document.lower]
  | cons definition document => simp [Document.lower, definition.lower_eq]

theorem eq_nil_iff_isGap {text : String} (h : parse text = .ok document) :
    document = [] ↔ IsGap text.toList [] := by
  constructor
  · rintro rfl
    obtain ⟨tokens, before, body, tail, hspells, hbefore, hbody, htail, htext⟩ := renders_of_parse h
    cases hspells
    rw [hbody.eq_nil, List.nil_append] at htext
    exact ⟨before, tail, hbefore, htail, .inr rfl, htext⟩
  · rintro ⟨body, tail, hbody, htail, _, htext⟩
    have hstream : Stream [] (afterLayout text.toList) := by
      rw [htext, hbody.afterLayout_append, htail.afterLayout_eq_nil]
      exact .nil
    exact Except.ok.inj (h.symm.trans (parse_of_stream .nil hstream))

end Ebnf

namespace Grammar

open Ebnf

theorem ofRules_eq_noRules_iff {rules : List Rule} :
    ofRules rules = .error .noRules ↔ rules = [] := by
  rcases ofRules_cases rules with ⟨name, hname, h⟩ | ⟨hrules, h⟩ | ⟨g, _, hrules, h⟩
  · have hrules : rules ≠ [] := by
      rintro rfl
      cases hname
    simp [h, hrules]
  · exact iff_of_true h hrules
  · simp [h, hrules]

theorem ofRules_eq_duplicateRule_iff {rules : List Rule} {x : String} :
    ofRules rules = .error (.duplicateRule x) ↔
      firstRepeated? [] (rules.map Rule.name) = some x := by
  rcases ofRules_cases rules with ⟨name, hname, h⟩ | ⟨rfl, h⟩ | ⟨g, rfl, _, h⟩
  · simp [h, hname]
  · simp [h, firstRepeated?]
  · simp [h, g.firstRepeated?_names]

/-- A text in the notation is refused for two reasons only: it holds nothing but layout, or two of its
definitions share a name, of which the first that repeats an earlier one is reported. No made name is
ever reported, and where neither reason holds there is a grammar. -/
theorem ofText_rule_faults {text : String} {document : Document} (source : String)
    (h : parse text = .ok document) :
    document.Renders IsLayout text.toList ∧
      (ofText source text = .error .noRules ↔ IsGap text.toList []) ∧
      (document = [] ↔ IsGap text.toList []) ∧
      (∀ x, ofText source text = .error (.duplicateRule x) ↔ document.RepeatsFirst x) ∧
      ((∃ x, document.RepeatsFirst x) ↔ ¬ (document.map Definition.name).Nodup) ∧
      (document ≠ [] → (document.map Definition.name).Nodup →
        ∃ g, ofText source text = .ok g ∧ g.rules = document.lower) ∧
      ∀ owner n, ofText source text ≠ .error (.duplicateRule (madeName owner n)) := by
  obtain ⟨tokens, _, _, _, hspells, _⟩ := renders_of_parse h
  have hnames : ∀ definition ∈ document, isIdentifier definition.name.toList = true :=
    fun definition hdefinition => (hspells.wellFormed definition hdefinition).1
  have hempty := eq_nil_iff_isGap h
  have hduplicate : ∀ x, ofText source text = .error (.duplicateRule x) ↔
      document.RepeatsFirst x := by
    intro x
    rw [ofText_of_parse h, ofRules_eq_duplicateRule_iff, Document.firstRepeated?_lower_iff hnames]
  have hrepeats : (∃ x, document.RepeatsFirst x) ↔ ¬ (document.map Definition.name).Nodup :=
    ⟨fun ⟨_, hx⟩ => hx.not_nodup, Document.exists_repeatsFirst⟩
  refine ⟨renders_of_parse h, ?_, hempty, hduplicate, hrepeats, ?_, ?_⟩
  · rw [ofText_of_parse h, ofRules_eq_noRules_iff, Document.lower_eq_nil_iff, hempty]
  · intro hne hnodup
    have hrules : document.lower ≠ [] := fun hnil => hne (Document.lower_eq_nil_iff.1 hnil)
    exact ⟨⟨document.lower, Document.nodup_names_lower hnames hnodup⟩,
      ofText_eq_ok_iff.2 ⟨document, h, rfl, hrules⟩, rfl⟩
  · intro owner n hmade
    obtain ⟨before, definition, after, hdocument, hname, _⟩ := (hduplicate _).1 hmade
    have hmem : definition ∈ document := by simp [hdocument]
    exact madeName_ne_of_isIdentifier (hnames definition hmem) hname

def againText : String :=
  "<sum> ::= (sum | 'a')* // sum ::=\nproduct := sum+ sum ::= /x/ product ::= ;"

theorem names_of_parse_againText :
    ∃ document, parse againText = .ok document ∧
      document.map Definition.name = ["sum", "product", "sum", "product"] := by
  have hnames : (parse againText).toOption.map (·.map Definition.name) =
      some ["sum", "product", "sum", "product"] := by decide +kernel
  cases hparse : parse againText with
  | error fault => simp [hparse, Except.toOption] at hnames
  | ok document =>
    rw [hparse] at hnames
    exact ⟨document, rfl, Option.some.inj hnames⟩

theorem ofText_againText :
    ∃ document, parse againText = .ok document ∧ document.RepeatsFirst "sum" ∧
      ofText inlineSource againText = .error (.duplicateRule "sum") ∧
      ofText inlineSource againText ≠ .error (.duplicateRule (madeName "sum" 1)) := by
  obtain ⟨document, hparse, hnames⟩ := names_of_parse_againText
  obtain ⟨_, _, _, hduplicate, _, _, hmade⟩ := ofText_rule_faults inlineSource hparse
  have hfirst : document.RepeatsFirst "sum" :=
    @Document.repeatsFirst_of_names _ _ ["sum", "product"] _ hnames (by decide) (by decide)
  exact ⟨document, hparse, hfirst, (hduplicate "sum").2 hfirst, hmade "sum" 1⟩

end Grammar

end GrammarCompletion
