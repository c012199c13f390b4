import GrammarCompletion.Proofs.Ebnf.Diagnosis
import GrammarCompletion.Proofs.Grammar.Source

/-! Where syntax faults stand. The offset of a fault cuts the text between two characters, and what
stands in front of the cut is the beginning of some grammar text. It is grammar text by itself if the
fault expects the end of the text there. -/

namespace GrammarCompletion.Grammar

open Ebnf

theorem ofText_ne_badText {source text : String} {document : Document}
    (h : parse text = .ok document) (fault : Ebnf.Fault) :
    ofText source text ≠ .error (.badText source fault) := by
  rw [ofText_of_parse h]
  exact ofRules_ne_badText document.lower source fault

/-- A syntax fault lies between two characters of the text and covers none of them. Some text
behind the part in front of it leaves no syntax fault, and none is needed where the fault expects
the end of the text or a whole grammar. -/
theorem viable_of_badText {source text : String} {fault : Ebnf.Fault}
    (h : ofText source text = .error (.badText source fault)) :
    fault.span.start ≤ text.utf8ByteSize ∧ fault.span.width = 0 ∧
    ∃ before behind : String, text = before ++ behind ∧
      before.utf8ByteSize = fault.span.start ∧
      (∃ tail, ∀ other, ofText source (before ++ tail) ≠ .error (.badText source other)) ∧
      (.endOfInput ∈ fault.expected ∨ .grammar ∈ fault.expected →
        ∃ document, parse before = .ok document) := by
  obtain ⟨before, behind, htext, hoffset, ⟨tail, document, hdocument⟩, hwhole⟩ :=
    exists_completable_of_parse_eq_error (ofText_eq_badText_iff.1 h)
  have hcut : text = .ofList before ++ .ofList behind := by
    rw [← String.ofList_append, ← htext, String.ofList_toList]
  have hstart : (String.ofList before).utf8ByteSize = fault.span.start := by
    rw [Text.utf8ByteSize_ofList, hoffset]
    rfl
  have hbound : fault.span.start ≤ text.utf8ByteSize := by
    rw [hcut, String.utf8ByteSize_append, hstart]
    exact Nat.le_add_right _ _
  rw [String.ofList_append] at hdocument
  exact ⟨hbound, Nat.sub_self _, .ofList before, .ofList behind, hcut, hstart,
    ⟨.ofList tail, ofText_ne_badText hdocument⟩, hwhole⟩

def strayText : String := "a ::= 'é' /* ) */ )"

def strayFault : Ebnf.Fault := ⟨19, [], [.endOfInput, .identifier, .item, .repetition]⟩

theorem badText_stray : ofText inlineSource strayText = .error (.badText inlineSource strayFault) :=
  ofText_eq_badText_iff.2 (parse_eq_error_iff.2 (by decide +kernel))

theorem viable_of_badText_stray :
    ofText inlineSource strayText = .error (.badText inlineSource strayFault) ∧
    ∃ before behind : String, strayText = before ++ behind ∧ before.utf8ByteSize = 19 ∧
      (∃ tail, ∀ other, ofText inlineSource (before ++ tail) ≠ .error (.badText inlineSource other)) ∧
      ∃ document, parse before = .ok document := by
  obtain ⟨_, _, before, behind, htext, hstart, htail, hwhole⟩ := viable_of_badText badText_stray
  exact ⟨badText_stray, before, behind, htext, hstart, htail, hwhole (.inl (by decide))⟩

end GrammarCompletion.Grammar
