import GrammarCompletion.Proofs.Ebnf.Diagnosis
import GrammarCompletion.Proofs.Ebnf.ItemFaults

/-! The names that faults give are few. Whatever the text, a fault lies where a rule could have begun
or gone on, and what was tried there amounts to one of ten pairs of names. The rules are followed in
turn: between two of them nothing is left but what has ended the last one. -/

open GrammarCompletion.Ebnf.Parser

namespace GrammarCompletion.Ebnf

open Frontier

/-- All the names that faults give: at the front of the text, where the rules end before the text
does, and where an alternative goes wrong. -/
def faultNames : List (List Construct × List Construct) :=
  [([], [.grammar]), ([], [.endOfInput, .rule]), ([], [.endOfInput, .identifier]),
    ([], [.endOfInput, .identifier, .item]), ([], [.endOfInput, .identifier, .item, .repetition])] ++
    innerNames

section Rules

variable {item : Parser Item} {depth : Nat} {c d e : Cursor} {f g : Frontier}

theorem answer_rule_of_eq_none (item : Parser Item) (h : ruleStart.answer c = none) :
    (Ebnf.rule item).answer c = none := by
  rw [Ebnf.rule, answer_named, answer_bind, h, Option.bind_none]

theorem Diagnoses.rule (h : Diagnoses item depth) (hc : layout c.rest = [])
    (hdepth : c.rest.length < depth) {id : String} (hstart : ruleStart.answer c = some (id, d)) :
    ∃ body e, Halts e ((Ebnf.rule item).frontier false c) ∧
      d.offset ≤ ((Ebnf.rule item).frontier false c).offset ∧
        (Ebnf.rule item).answer c =
          ((optional (word ";")).answer e.skip).map fun r => (⟨id, body⟩, r.2) := by
  obtain ⟨_, _, hstarts⟩ := takes_ruleStart hc _ _ hstart
  have hlength := hstarts.length_le
  have hskip := d.length_skip_le
  obtain ⟨body, e, hbody, hreaches⟩ := h.alternation d.layout_skip (by omega)
  have hanswer : (Ebnf.rule item).answer c =
      ((optional (word ";")).answer e.skip).map fun r => (⟨id, body⟩, r.2) := by
    rw [Ebnf.rule, answer_named, answer_bind, hstart, Option.bind_some, answer_skipLayout_then,
      answer_bind, hbody, Option.bind_some, answer_skipLayout_then, answer_bind]
    cases (optional (word ";")).answer e.skip <;> rfl
  have hfrontier : (Ebnf.rule item).frontier false c =
      (Ebnf.alternation item).frontier false d.skip := by
    have hsome : ((Ebnf.rule item).answer c).isSome = true := by
      rw [hanswer, answer_optional]
      rfl
    have hname : ((name .ruleName).answer c).isSome = true :=
      isSome_answer_name_of_ruleStart (hstart ▸ rfl)
    have hend : ∀ k, Parser.frontier
        (do let _ ← optional (word ";"); return ⟨id, body⟩ : Parser Definition) false k = .start := by
      intro k
      rw [frontier_bind, frontier_optional, frontier_word]
      cases (optional (word ";")).answer k <;> rfl
    rw [Ebnf.rule, answer_named] at hsome
    rw [Ebnf.rule, frontier_named_of_isSome .rule hsome, frontier_bind_of_some hstart,
      frontier_ruleStart, frontier_name_of_isSome _ hname, start_join, frontier_skipLayout_then,
      frontier_bind_of_some hbody, frontier_skipLayout_then, hend, join_start]
  rw [hfrontier]
  exact ⟨body, e, hreaches.halts, Nat.le_trans d.offset_le_skip hreaches.offset_le, hanswer⟩

theorem Diagnoses.isSome_answer_rule (h : Diagnoses item depth) (hc : layout c.rest = [])
    (hdepth : c.rest.length < depth) :
    ((Ebnf.rule item).answer c).isSome = (ruleStart.answer c).isSome := by
  cases hstart : ruleStart.answer c with
  | none =>
    rw [answer_rule_of_eq_none item hstart]
    rfl
  | some r =>
    obtain ⟨_, _, _, _, hrule⟩ := h.rule hc hdepth hstart
    rw [hrule, answer_optional]
    rfl

def Between (d : Cursor) (f : Frontier) : Prop :=
  f = .start ∨ f.offset < d.offset ∨ Halts d f

theorem Diagnoses.passed_rule (h : Diagnoses item depth) (hc : layout c.rest = [])
    (hdepth : c.rest.length < depth) {definition : Definition}
    (hanswer : (Ebnf.rule item).answer c = some (definition, d)) :
    Between d ((Ebnf.rule item).frontier false c) ∧
      c.offset + 1 < ((Ebnf.rule item).frontier false c).offset := by
  cases hstart : ruleStart.answer c with
  | none =>
    have hnone := answer_rule_of_eq_none item hstart
    exact absurd (hanswer.symm.trans hnone) (Option.some_ne_none _)
  | some r =>
    obtain ⟨id, s⟩ := r
    obtain ⟨body, e, hhalts, hplace, hrule⟩ := h.rule hc hdepth hstart
    have hlt := offset_of_answer_ruleStart hc hstart
    rw [hrule, answer_optional] at hanswer
    refine ⟨?_, by omega⟩
    cases hword : (word ";").answer e.skip with
    | none =>
      rw [hword] at hanswer
      obtain ⟨_, rfl⟩ := Prod.mk.inj (Option.some.inj hanswer)
      exact .inr (.inr hhalts.skip)
    | some r =>
      obtain ⟨_, hended⟩ := exists_head_of_answer_word rfl hword
      rw [hword] at hanswer
      obtain ⟨_, rfl⟩ : _ ∧ r.2 = d := Prod.mk.inj (Option.some.inj hanswer)
      refine .inr (.inl ?_)
      rw [hhalts.offset_eq hended (by decide) (by decide), (answer_word_eq_some hword).2]
      exact Nat.lt_succ_self _

inductive Refuses (c : Cursor) : Frontier → Prop where
  | bracket {behind : List Char} (h : c.rest = '<' :: behind) (hid : identifier? behind = none) :
      Refuses c ⟨c.offset + 1, [], [.identifier]⟩
  | sign (h : ((name .ruleName).answer c).isSome = true) :
      Refuses c ⟨c.offset, [], [.rule, .endOfInput]⟩
  | name (h : (name .ruleName).answer c = none) :
      Refuses c ⟨c.offset, [], [.identifier, .endOfInput]⟩

theorem refuses_of_answer_ruleStart (item : Parser Item) (h : ruleStart.answer c = none) :
    Refuses c (((Ebnf.rule item).frontier false c).join (only false .endOfInput c.offset)) := by
  have hnone := answer_rule_of_eq_none item h
  rw [Ebnf.rule, answer_named] at hnone
  rw [Ebnf.rule, frontier_named_of_eq_none .rule hnone, frontier_bind_of_none h, frontier_ruleStart]
  cases hname : (name .ruleName).answer c with
  | some r =>
    have hsome : ((name .ruleName).answer c).isSome = true := hname ▸ rfl
    rw [frontier_name_of_isSome _ hsome, settle_start, only_false, only_false, join_same]
    exact .sign hsome
  | none =>
    rcases head_or '<' c.rest with ⟨behind, hrest⟩ | hangle
    · rw [frontier_name_false_of_angle _ hrest hname]
      cases hid : identifier? behind with
      | none =>
        rw [Option.isSome_none, if_neg Bool.false_ne_true, settle_of_lt (Nat.lt_succ_self _),
          join_of_gt (by simp)]
        exact .bracket hrest hid
      | some w =>
        rw [Option.isSome_some, if_pos rfl, settle_only, only_false, only_false, join_same]
        exact .name hname
    · have hid : (identifier? c.rest).isSome = false := by
        rw [← isSome_answer_identifier, ← answer_name_of_not_angle _ hangle, hname]
        rfl
      rw [frontier_name_of_not_angle _ hangle, frontier_identifier, if_pos hid, settle_only,
        only_false, only_false, join_same]
      exact .name hname

end Rules

section Documents

variable {item : Parser Item} {depth : Nat} {c d e : Cursor} {f g : Frontier}
  {before : List Construct}

theorem Refuses.names_mem (h : Refuses c g) : g.names ∈ faultNames := by
  cases h with
  | bracket => exact (by decide : namesOf [] [.identifier] ∈ faultNames)
  | sign => exact (by decide : namesOf [] [.rule, .endOfInput] ∈ faultNames)
  | name => exact (by decide : namesOf [] [.identifier, .endOfInput] ∈ faultNames)

theorem Refuses.offset_le (h : Refuses c g) : c.offset ≤ g.offset := by
  cases h with
  | bracket => exact Nat.le_succ _
  | sign | name => exact Nat.le_refl _

theorem Leaves.names_mem_of_refuses (hbefore : before = [] ∨ before = [.repetition])
    (h : Leaves before c f) (hrefuses : Refuses c g) (hstart : ruleStart.answer c = none) :
    (f.join g).names ∈ faultNames := by
  by_cases hlt : g.offset < f.offset
  · rw [join_of_gt hlt]
    exact List.mem_append_right _ (h.names_mem hbefore)
  cases h with
  | name _ hsome => exact absurd hsome (by rw [hstart]; exact Bool.false_ne_true)
  | bracketed hrest hid =>
    cases hrefuses with
    | bracket hrest' hnone =>
      rw [hrest] at hrest'
      rw [(List.cons.inj hrest').2, hnone] at hid
      exact absurd hid Bool.false_ne_true
    | sign | name => exact absurd (Nat.lt_succ_self _) hlt
  | bracket hrest hid =>
    cases hrefuses with
    | bracket =>
      rw [join_same]
      exact (by decide : namesOf [] [.identifier, .identifier] ∈ faultNames)
    | sign | name => exact absurd (Nat.lt_succ_self _) hlt
  | group hrest hbeyond =>
    cases hrefuses with
    | bracket hrest' => exact absurd (List.cons.inj (hrest.symm.trans hrest')).1 (by decide)
    | sign | name => exact absurd hbeyond hlt
  | other hid hangle =>
    cases hrefuses with
    | bracket hrest' => exact absurd hrest' (hangle _)
    | sign hsome =>
      rw [answer_name_of_not_angle _ hangle, isSome_answer_identifier, hid] at hsome
      exact absurd hsome Bool.false_ne_true
    | name =>
      rw [join_same]
      rcases hbefore with rfl | rfl
      · exact (by decide : namesOf [] [.item, .identifier, .endOfInput] ∈ faultNames)
      · exact (by decide :
          namesOf [] [.repetition, .item, .identifier, .endOfInput] ∈ faultNames)

theorem Between.names_mem (h : Between d f) (hrefuses : Refuses d.skip g)
    (hstart : ruleStart.answer d.skip = none) : (f.join g).names ∈ faultNames := by
  have hplace := d.offset_le_skip
  have hfound := hrefuses.offset_le
  rcases h with rfl | hlt | ⟨before, hbefore, hleaves⟩
  · rw [start_join]
    exact hrefuses.names_mem
  · rw [join_of_lt (by omega)]
    exact hrefuses.names_mem
  · exact hleaves.names_mem_of_refuses hbefore hrefuses hstart

theorem Between.offset_le (h : Between d f) (hstart : (ruleStart.answer d.skip).isSome = true) :
    f.offset ≤ d.skip.offset + 1 := by
  have hplace := d.offset_le_skip
  rcases h with rfl | hlt | ⟨before, hbefore, hleaves⟩
  · exact Nat.zero_le _
  · omega
  · cases hleaves with
    | name | other => exact Nat.le_succ _
    | bracketed | bracket => exact Nat.le_refl _
    | group hrest =>
      have hnone : ruleStart.answer d.skip = none :=
        answer_ruleStart_eq_none (by simp [hrest, isIdentifierStart])
      rw [hnone] at hstart
      exact absurd hstart Bool.false_ne_true

theorem Frontier.names_settle {k : Construct} {o : Nat} (h : f.names ∈ faultNames)
    (hk : (only false k o).names ∈ faultNames) : (f.settle false k o).names ∈ faultNames := by
  unfold settle
  split
  · exact h
  · exact hk

def Stops (d : Cursor) (f : Frontier) : Prop :=
  (f.join (only false .endOfInput d.skip.offset)).names ∈ faultNames

theorem Diagnoses.rules (h : Diagnoses item depth) (hc : layout c.rest = [])
    (hdepth : c.rest.length < depth) :
    ∃ document d, (spaced (Ebnf.rule item)).answer c = some (document, d) ∧
      Stops d ((spaced (Ebnf.rule item)).frontier false c) := by
  have hround : ∀ (d : Cursor) f definition e, Between d f ∧ d.rest.length < depth →
      (Ebnf.rule item).answer d.skip = some (definition, e) →
      e.rest.length < d.rest.length ∧
        Between e (f.join ((Ebnf.rule item).frontier false d.skip)) ∧ e.rest.length < depth := by
    rintro d f definition e ⟨hf, hd⟩ hanswer
    have hskip := d.length_skip_le
    have hdeep : d.skip.rest.length < depth := by omega
    obtain ⟨hbetween, hplace⟩ := h.passed_rule d.layout_skip hdeep hanswer
    obtain ⟨_, hspells, hpasses⟩ := h.takes.rule d.layout_skip _ _ hanswer
    have hlength := (hpasses.lt hspells.ne_nil).1
    have hstart : (ruleStart.answer d.skip).isSome = true := by
      rw [← h.isSome_answer_rule d.layout_skip hdeep, hanswer]
      rfl
    have hfound := hf.offset_le hstart
    rw [join_of_lt (by omega)]
    exact ⟨by omega, hbetween, by omega⟩
  have hend : ∀ (d : Cursor) f, Between d f ∧ d.rest.length < depth →
      (Ebnf.rule item).answer d.skip = none →
      Stops d (f.join ((Ebnf.rule item).frontier false d.skip)) := by
    rintro d f ⟨hf, hd⟩ hnone
    have hskip := d.length_skip_le
    have hstart : ruleStart.answer d.skip = none := by
      rw [← Option.not_isSome_iff_eq_none, ← h.isSome_answer_rule d.layout_skip (by omega), hnone]
      exact Bool.false_ne_true
    rw [Stops, join_assoc]
    exact hf.names_mem (refuses_of_answer_ruleStart item hstart) hstart
  obtain ⟨document, d, hanswer, hstops⟩ :=
    exists_answer_spaced false hround hend hc ⟨.inl rfl, hdepth⟩
  rw [start_join] at hstops
  exact ⟨document, d, hanswer, hstops⟩

/-- The names are those of the parts, or that of the grammar where none of them has gone on. -/
theorem Diagnoses.grammar (h : Diagnoses item depth) (hdepth : c.rest.length < depth)
    (hanswer : (Ebnf.grammar item).answer c = none) :
    ((Ebnf.grammar item).frontier false c).names ∈ faultNames := by
  have hskip := c.length_skip_le
  obtain ⟨document, d, hrules, hstops⟩ := h.rules c.layout_skip (by omega)
  rw [Ebnf.grammar, answer_named] at hanswer
  rw [Ebnf.grammar, frontier_named_of_eq_none .grammar hanswer]
  refine Frontier.names_settle ?_ (by decide : namesOf [] [.grammar] ∈ faultNames)
  rw [answer_skipLayout_then, answer_bind, hrules, Option.bind_some, answer_skipLayout_then,
    answer_bind] at hanswer
  have hend : (named .endOfInput atEnd).answer d.skip = none := by
    cases hend : (named .endOfInput atEnd).answer d.skip with
    | none => rfl
    | some r =>
      rw [hend] at hanswer
      exact absurd hanswer (Option.some_ne_none _)
  rw [frontier_skipLayout_then, frontier_bind_of_some hrules, frontier_skipLayout_then,
    frontier_bind_of_none hend, frontier_named_of_start .endOfInput (frontier_atEnd _ _)]
  rw [answer_named] at hend
  rw [hend]
  exact hstops

theorem names_mem_of_parse_eq_error {text : String} {fault : Fault} (h : parse text = .error fault) :
    (fault.unexpected, fault.expected) ∈ faultNames := by
  obtain ⟨hnone, hfault⟩ := parse_eq_error_iff.1 h
  have hanswer := Option.isNone_iff_eq_none.1 hnone
  have hnames := (diagnoses_itemUpTo (text.toList.length + 1)).grammar (Nat.lt_succ_self _) hanswer
  rw [← hfault]
  exact hnames

def faultTexts : List String :=
  [")", " a", " )", "a ::= )", "a ::= b )", "a ::= (", "a ::= (b", "<", "a ::= (c ::= d",
    "a ::= (b c ::= d"]

theorem exists_text_of_mem_faultNames {names : List Construct × List Construct}
    (h : names ∈ faultNames) : ∃ text fault, parse text = .error fault ∧
      (fault.unexpected, fault.expected) = names := by
  have htexts : ∀ names ∈ faultNames, ∃ text ∈ faultTexts,
      (readText text.toList).result.isNone = true ∧
        ((Fault.ofAttempts (readText text.toList).attempts).unexpected,
          (Fault.ofAttempts (readText text.toList).attempts).expected) = names := by
    decide +kernel
  obtain ⟨text, _, hnone, hnames⟩ := htexts names h
  exact ⟨text, _, parse_eq_error_iff.2 ⟨hnone, rfl⟩, hnames⟩

/-- The names of a fault are one of ten pairs and never none at all, and each of the ten is given for
some text. -/
theorem faultNames_complete : faultNames.length = 10 ∧ faultNames.Nodup ∧ ([], []) ∉ faultNames ∧
    ∀ names, names ∈ faultNames ↔ ∃ text fault, parse text = .error fault ∧
      (fault.unexpected, fault.expected) = names := by
  refine ⟨by decide, by decide, by decide, fun names => ⟨exists_text_of_mem_faultNames, ?_⟩⟩
  rintro ⟨text, fault, hparse, rfl⟩
  exact names_mem_of_parse_eq_error hparse

end Documents

end GrammarCompletion.Ebnf
