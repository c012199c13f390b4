import GrammarCompletion.CommandLine.Output
import GrammarCompletion.Proofs.Grammar.Source
import GrammarCompletion.Proofs.Json.Reading
import GrammarCompletion.Proofs.Json.Writing

/-! A grammar that is written as a JSON rule table and read again is the same grammar, with its rules
in the same order. -/

namespace GrammarCompletion

namespace Json.Reader

theorem reads_strings (texts : List String) :
    Reads (sequence string) (Value.strings texts).datum texts := by
  rw [Value.strings, Value.datum, Value.datumsOf_eq_map, List.map_map]
  apply reads_sequence
  rw [List.forall₂_map_left_iff, List.forall₂_same]
  exact fun s _ => reads_string (Body.spells_ofString s)

end Json.Reader

namespace Grammar

open Json.Reader (Reads)

theorem setRule_of_fresh {rule : Rule} {rules : List Rule} (h : rule.name ∉ rules.map Rule.name) :
    setRule rule rules = rules ++ [rule] := by
  induction rules with
  | nil => rfl
  | cons r rules ih =>
    rw [List.map_cons, List.mem_cons, not_or] at h
    rw [setRule, if_neg fun heq => h.1 heq.symm, ih h.2, List.cons_append]

theorem foldl_setRule {table rules : List Rule} (h : ((table ++ rules).map Rule.name).Nodup) :
    (rules.map fun r => (r.name, r.alternatives)).foldl
      (fun rules (name, alternatives) => setRule ⟨name, alternatives⟩ rules) table =
        table ++ rules := by
  induction rules generalizing table with
  | nil => exact (List.append_nil table).symm
  | cons r rules ih =>
    have hassoc : table ++ r :: rules = (table ++ [r]) ++ rules := by simp
    have hfresh : r.name ∉ table.map Rule.name := by
      intro hmem
      rw [List.map_append, List.map_cons] at h
      exact (List.nodup_append.1 h).2.2 r.name hmem r.name List.mem_cons_self rfl
    rw [hassoc] at h ⊢
    rw [List.map_cons, List.foldl_cons]
    change List.foldl _ (setRule r table) _ = _
    rw [setRule_of_fresh hfresh]
    exact ih h

theorem reads_alternatives (alternatives : List Alternative) :
    Reads (Json.Reader.sequence (Json.Reader.sequence Json.Reader.string))
      (Json.Value.array (alternatives.map Json.Value.strings)).datum alternatives := by
  rw [Json.Value.datum, Json.Value.datumsOf_eq_map, List.map_map]
  apply Json.Reader.reads_sequence
  rw [List.forall₂_map_left_iff, List.forall₂_same]
  exact fun a _ => Json.Reader.reads_strings a

theorem reads_table (g : Grammar) :
    Reads readTable g.toJson.datum (g.rules.map fun r => (r.name, r.alternatives)) := by
  rw [toJson, Json.Value.datum, Json.Value.membersOf_eq_map, List.map_map]
  apply Json.Reader.reads_map
  rw [List.forall₂_map_left_iff, List.forall₂_map_right_iff, List.forall₂_same]
  exact fun r _ => ⟨Json.Body.spells_ofString r.name, reads_alternatives r.alternatives⟩

theorem ofTable_of_isText {g : Grammar} {text : String} (h : g.toJson.datum.IsText text) :
    ofTable text = ofRules g.rules := by
  have hdistinct : (([] ++ g.rules).map Rule.name).Nodup := g.distinct
  have hfold := foldl_setRule hdistinct
  unfold ofTable
  rw [Json.Reader.all_of_reads (reads_table g) h]
  simp only [hfold, List.nil_append]

/-- The table that the command line prints for a grammar is read as its rules are as a list: as that
grammar, if it has a rule. -/
theorem ofTable_writeJson (g : Grammar) :
    ofTable (CommandLine.writeJson g.toJson) = ofRules g.rules ∧
      ofRules g.rules = if g.rules = [] then .error .noRules else .ok g := by
  refine ⟨ofTable_of_isText ?_, ofRules_rules g⟩
  have hwritten : g.toJson.datum.IsText g.toJson.write := g.toJson.isText_write
  unfold CommandLine.writeJson CommandLine.line Json.Datum.IsText
  rw [String.toList_append]
  exact hwritten.append_blanks (List.forall_mem_singleton.2 rfl)

end Grammar

end GrammarCompletion
