import GrammarCompletion.Grammar.Source
import GrammarCompletion.Proofs.Ebnf.Acceptance
import GrammarCompletion.Proofs.Ebnf.Reading

/-! Grammar text and the notation. Text in the notation, whatever its layout and spelling, gives
the grammar of the document it writes, and no other text is free of syntax faults. -/

namespace GrammarCompletion.Grammar

open Ebnf

theorem ofText_of_parse {source text : String} {document : Document}
    (h : parse text = .ok document) : ofText source text = ofRules document.lower := by
  unfold ofText
  rw [h]

/-- A list of rules is refused for a repeated name, or for being empty, and else it is the grammar. -/
theorem ofRules_cases (rules : List Rule) :
    (∃ name, firstRepeated? [] (rules.map Rule.name) = some name ∧
      ofRules rules = .error (.duplicateRule name)) ∨
    (rules = [] ∧ ofRules rules = .error .noRules) ∨
    ∃ g : Grammar, g.rules = rules ∧ rules ≠ [] ∧ ofRules rules = .ok g := by
  unfold ofRules
  split
  · rename_i name hrepeated
    exact .inl ⟨name, hrepeated, rfl⟩
  · by_cases hrules : rules = []
    · exact .inr (.inl ⟨hrules, if_pos hrules⟩)
    · exact .inr (.inr ⟨_, rfl, hrules, if_neg hrules⟩)

theorem firstRepeated?_names (g : Grammar) : firstRepeated? [] (g.rules.map Rule.name) = none :=
  firstRepeated?_eq_none_iff.2 ⟨g.distinct, by simp⟩

theorem ofRules_ne_badText (rules : List Rule) (source : String) (fault : Ebnf.Fault) :
    ofRules rules ≠ .error (.badText source fault) := by
  rcases ofRules_cases rules with ⟨_, _, h⟩ | ⟨_, h⟩ | ⟨_, _, _, h⟩ <;> simp [h]

theorem ofRules_rules (g : Grammar) :
    ofRules g.rules = if g.rules = [] then .error .noRules else .ok g := by
  rcases ofRules_cases g.rules with ⟨name, hname, _⟩ | ⟨hrules, h⟩ | ⟨found, hfound, hrules, h⟩
  · rw [g.firstRepeated?_names] at hname
    cases hname
  · rw [h, if_pos hrules]
  · rw [h, if_neg hrules, Grammar.ext hfound]

theorem ofRules_eq_ok_iff {rules : List Rule} {g : Grammar} :
    ofRules rules = .ok g ↔ rules = g.rules ∧ g.rules ≠ [] := by
  constructor
  · intro hg
    rcases ofRules_cases rules with ⟨_, _, h⟩ | ⟨_, h⟩ | ⟨found, rfl, hrules, h⟩
    · rw [h] at hg
      cases hg
    · rw [h] at hg
      cases hg
    · obtain rfl := Except.ok.inj (h.symm.trans hg)
      exact ⟨rfl, hrules⟩
  · rintro ⟨rfl, hrules⟩
    rw [ofRules_rules, if_neg hrules]

theorem ofText_eq_badText_iff {source text : String} {fault : Ebnf.Fault} :
    ofText source text = .error (.badText source fault) ↔ parse text = .error fault := by
  unfold ofText
  cases parse text with
  | ok document => simpa using ofRules_ne_badText document.lower source fault
  | error found => simp

theorem exists_document_of_ofText {source text : String}
    (h : ∀ fault, ofText source text ≠ .error (.badText source fault)) :
    ∃ document, parse text = .ok document := by
  cases hparse : parse text with
  | ok document => exact ⟨document, rfl⟩
  | error fault => exact absurd (ofText_eq_badText_iff.2 hparse) (h fault)

theorem ofText_eq_ok_iff {source text : String} {g : Grammar} :
    ofText source text = .ok g ↔
      ∃ document, parse text = .ok document ∧ document.lower = g.rules ∧ g.rules ≠ [] := by
  constructor
  · intro h
    have hfault : ∀ fault, ofText source text ≠ .error (.badText source fault) := by simp [h]
    obtain ⟨document, hparse⟩ := exists_document_of_ofText hfault
    rw [ofText_of_parse hparse] at h
    exact ⟨document, hparse, ofRules_eq_ok_iff.1 h⟩
  · rintro ⟨document, hparse, hrules⟩
    rw [ofText_of_parse hparse]
    exact ofRules_eq_ok_iff.2 hrules

/-- A text that writes a document is read as this document, and gives its grammar or what is wrong with
its rules, unless a pattern in it begins like a block comment; and a text without a syntax fault writes
the document that is read. -/
theorem ofText_renderings (source : String) :
    (∀ (document : Document) (text : String),
      (∀ lexeme ∈ document.terminals, ¬ ['/', '*'] <+: lexeme.toList) →
      document.Renders IsSeparator text.toList →
      parse text = .ok document ∧ ofText source text = ofRules document.lower) ∧
    ∀ text : String, (∀ fault, ofText source text ≠ .error (.badText source fault)) →
      ∃ document : Document, document.Renders IsLayout text.toList ∧
        parse text = .ok document ∧ ofText source text = ofRules document.lower := by
  constructor
  · intro document text hstar hrenders
    have hparse := parse_of_renders hstar hrenders
    exact ⟨hparse, ofText_of_parse hparse⟩
  · intro text hfault
    obtain ⟨document, hparse⟩ := exists_document_of_ofText hfault
    exact ⟨document, renders_of_parse hparse, hparse, ofText_of_parse hparse⟩

def marksDefinition : Definition where
  name := "marks"
  body := [[.terminal "'!'" (some .oneOrMore), .reference "marks" none], []]

def marksDocument : Document := [marksDefinition]

def marksText : String := "// !\nmarks := '!' + <marks>/**/| ; // ::="

theorem spells_marks : SpellsAll marksDocument
    (["marks", ":=", "'!'", "+", "<marks>", "|", ";"].map String.toList) := by
  have hname : isIdentifier "marks".toList = true := by decide
  have hmark : IsTerminal "'!'".toList := .inl (.inr ⟨['!'], by decide, by decide⟩)
  have hbody : Spells (.choice marksDefinition.body) _ :=
    .more (.cons (.terminal hmark) (.cons (.reference (.bracketed hname)) .nil)) (.single .nil)
  have hrule : SpellsRule marksDefinition _ := .ended (.bare hname) .short hbody
  exact .cons hrule .nil

theorem renders_marks : marksDocument.Renders IsSeparator marksText.toList := by
  have hblank : IsSeparator [' '] := ⟨.cons (.blank (by decide)) .nil, by decide⟩
  have hcomment : IsSeparator ['/', '*', '*', '/'] :=
    ⟨.cons (@IsLayoutPiece.blockComment [] (by decide)) .nil, by decide⟩
  refine ⟨_, "// !\n".toList, _, "// ::=".toList, spells_marks, ?_, .cons hblank (.cons hblank
    (.cons hblank (.cons hblank (.cons hcomment (.cons hblank (.last hblank.1)))))), ?_, ?_⟩
  · exact .cons (@IsLayoutPiece.lineComment [' ', '!'] (by decide)) .nil
  · exact .inr ⟨" ::=".toList, by decide, by decide⟩
  · decide

theorem ofText_marks :
    marksDocument.Renders IsSeparator marksText.toList ∧ parse marksText = .ok marksDocument ∧
      ofText inlineSource marksText = ofRules marksDocument.lower ∧
        ∃ document : Document, document.Renders IsLayout marksText.toList ∧
          parse marksText = .ok document ∧
            ofText inlineSource marksText = ofRules document.lower := by
  obtain ⟨hparse, hread⟩ :=
    (ofText_renderings inlineSource).1 marksDocument marksText (by decide) renders_marks
  refine ⟨renders_marks, hparse, hread, (ofText_renderings inlineSource).2 marksText ?_⟩
  intro fault
  rw [hread]
  exact ofRules_ne_badText _ _ fault

end GrammarCompletion.Grammar
