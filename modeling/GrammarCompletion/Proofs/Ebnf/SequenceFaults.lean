import GrammarCompletion.Proofs.Ebnf.TokenFaults

/-! Where sequences and alternatives end. A sequence goes on as long as items follow; what is left at
its end is what the place itself has to offer, be it the start of the next rule or something that is
no item, with the operator that the last item lacks. Only a group, which has been entered, can have
left something further on. -/

open GrammarCompletion.Ebnf.Parser

namespace GrammarCompletion.Ebnf

open Frontier

def namesOf (unexpected expected : List Construct) : List Construct × List Construct :=
  (Construct.all.filter (· ∈ unexpected), Construct.all.filter (· ∈ expected))

abbrev Frontier.names (f : Frontier) : List Construct × List Construct :=
  namesOf f.unexpected f.expected

def innerNames : List (List Construct × List Construct) :=
  [([], [.item]), ([], [.item, .repetition]), ([], [.identifier]), ([.identifier], []),
    ([.identifier], [.repetition])]

section Places

variable {o : Nat} {f g : Frontier} {c d e : Cursor} {before : List Construct}

/-- At the offset where the last item has ended, nothing is left but the operator it lacks. -/
structure Passed (o : Nat) (f : Frontier) : Prop where
  offset_le : f.offset ≤ o
  unexpected : f.offset = o → f.unexpected = []
  expected : f.offset = o → f.expected = [] ∨ f.expected = [.repetition]

theorem Passed.of_lt (h : f.offset < o) : Passed o f where
  offset_le := Nat.le_of_lt h
  unexpected := fun heq => absurd heq (Nat.ne_of_lt h)
  expected := fun heq => absurd heq (Nat.ne_of_lt h)

theorem Passed.start (o : Nat) : Passed o .start where
  offset_le := Nat.zero_le o
  unexpected := fun _ => rfl
  expected := fun _ => .inl rfl

theorem Passed.mono (h : Passed o f) {o' : Nat} (ho : o ≤ o') : Passed o' f := by
  rcases Nat.eq_or_lt_of_le ho with rfl | ho
  · exact h
  · exact .of_lt (Nat.lt_of_le_of_lt h.offset_le ho)

theorem Passed.join (hf : f.offset < o) (hg : Passed o g) : Passed o (f.join g) := by
  rcases Nat.lt_or_ge g.offset o with h | h
  · refine .of_lt ?_
    rw [offset_join]
    omega
  · rw [join_of_lt (Nat.lt_of_lt_of_le hf h)]
    exact hg

/-- What is left at a place where no further item follows; `before` is what the last item has left. -/
inductive Leaves (before : List Construct) (e : Cursor) : Frontier → Prop where
  | name (hid : (identifier? e.rest).isSome = true) (hstart : (ruleStart.answer e).isSome = true) :
      Leaves before e ⟨e.offset, [.identifier], before⟩
  | bracketed {behind : List Char} (h : e.rest = '<' :: behind)
      (hid : (identifier? behind).isSome = true) :
      Leaves before e ⟨e.offset + 1, [.identifier], []⟩
  | bracket {behind : List Char} (h : e.rest = '<' :: behind) (hid : identifier? behind = none) :
      Leaves before e ⟨e.offset + 1, [], [.identifier]⟩
  | group {behind : List Char} {f : Frontier} (h : e.rest = '(' :: behind) (hlt : e.offset < f.offset)
      (hnames : f.names ∈ innerNames) : Leaves before e f
  | other (hid : identifier? e.rest = none) (hangle : ∀ behind, e.rest ≠ '<' :: behind)
      (hparen : ∀ behind, e.rest ≠ '(' :: behind) :
      Leaves before e ⟨e.offset, [], before ++ [.item]⟩

def Halts (d : Cursor) (f : Frontier) : Prop :=
  ∃ before, (before = [] ∨ before = [.repetition]) ∧ Leaves before d.skip f

theorem Leaves.offset_le (h : Leaves before e f) : e.offset ≤ f.offset := by
  cases h with
  | name | other => exact Nat.le_refl _
  | bracketed | bracket => exact Nat.le_succ _
  | group _ hlt => exact Nat.le_of_lt hlt

theorem Leaves.names_mem (hbefore : before = [] ∨ before = [.repetition]) (h : Leaves before e f) :
    f.names ∈ innerNames := by
  cases h with
  | group _ _ hnames => exact hnames
  | bracketed => exact (by decide : namesOf [.identifier] [] ∈ innerNames)
  | bracket => exact (by decide : namesOf [] [.identifier] ∈ innerNames)
  | name =>
    rcases hbefore with rfl | rfl
    · exact (by decide : namesOf [.identifier] [] ∈ innerNames)
    · exact (by decide : namesOf [.identifier] [.repetition] ∈ innerNames)
  | other =>
    rcases hbefore with rfl | rfl
    · exact (by decide : namesOf [] [.item] ∈ innerNames)
    · exact (by decide : namesOf [] [.repetition, .item] ∈ innerNames)

theorem Halts.names_mem (h : Halts e f) : f.names ∈ innerNames := by
  obtain ⟨_, hbefore, hleaves⟩ := h
  exact hleaves.names_mem hbefore

theorem Passed.join_leaves (h : Passed e.offset f) (hleaves : Leaves [] e g) :
    ∃ before, (before = [] ∨ before = [.repetition]) ∧ Leaves before e (f.join g) := by
  rcases Nat.eq_or_lt_of_le h.offset_le with heq | hlt
  · refine ⟨f.expected, h.expected heq, ?_⟩
    cases hleaves with
    | name hid hstart =>
      rw [join_of_eq heq, heq, h.unexpected heq, List.append_nil]
      exact .name hid hstart
    | bracketed hrest hid =>
      rw [join_of_lt (by simp [heq])]
      exact .bracketed hrest hid
    | bracket hrest hid =>
      rw [join_of_lt (by simp [heq])]
      exact .bracket hrest hid
    | group hrest hlt hnames =>
      rw [join_of_lt (by omega)]
      exact .group hrest hlt hnames
    | other hid hangle hparen =>
      rw [join_of_eq heq, heq, h.unexpected heq]
      exact .other hid hangle hparen
  · rw [join_of_lt (Nat.lt_of_lt_of_le hlt hleaves.offset_le)]
    exact ⟨[], .inl rfl, hleaves⟩

theorem Halts.skip (h : Halts d f) : Halts d.skip f := by
  obtain ⟨before, hbefore, hleaves⟩ := h
  refine ⟨before, hbefore, ?_⟩
  rw [Cursor.skip_skip]
  exact hleaves

theorem Halts.offset_le (h : Halts d f) : d.skip.offset ≤ f.offset := by
  obtain ⟨_, _, hleaves⟩ := h
  exact hleaves.offset_le

theorem Halts.offset_eq (h : Halts d f) {x : Char} {behind : List Char}
    (hrest : d.skip.rest = x :: behind) (hangle : x ≠ '<') (hparen : x ≠ '(') :
    f.offset = d.skip.offset := by
  obtain ⟨before, _, hleaves⟩ := h
  cases hleaves with
  | name | other => rfl
  | bracketed h | bracket h => exact absurd (List.cons.inj (hrest.symm.trans h)).1 hangle
  | group h => exact absurd (List.cons.inj (hrest.symm.trans h)).1 hparen

/-- From the first place the text is read up to the second, where no further item follows. -/
structure Reaches (c d : Cursor) (f : Frontier) : Prop where
  halts : Halts d f
  offset_le : c.offset ≤ f.offset
  length_le : d.rest.length ≤ c.rest.length

theorem Halts.reaches (h : Halts d f) {tokens : List (List Char)} (hpasses : Passes tokens c d) :
    Reaches c d f where
  halts := h
  offset_le := Nat.le_trans hpasses.offset_le (Nat.le_trans d.offset_le_skip h.offset_le)
  length_le := hpasses.length_le

end Places

inductive Fails (c : Cursor) : Frontier → Prop where
  | bracketed {behind : List Char} (h : c.rest = '<' :: behind)
      (hid : (identifier? behind).isSome = true) : Fails c (only false .item c.offset)
  | bracket {behind : List Char} (h : c.rest = '<' :: behind) (hid : identifier? behind = none) :
      Fails c (only false .identifier (c.offset + 1))
  | group {behind : List Char} {f : Frontier} (h : c.rest = '(' :: behind) (hlt : c.offset < f.offset)
      (hnames : f.names ∈ innerNames) : Fails c f
  | other (hid : identifier? c.rest = none) (hangle : ∀ behind, c.rest ≠ '<' :: behind)
      (hparen : ∀ behind, c.rest ≠ '(' :: behind) : Fails c (only false .item c.offset)

/-- The parser of items leaves what an item should, in text that nests less than `depth` deep. -/
structure Diagnoses (item : Parser Item) (depth : Nat) : Prop where
  takes : TakesItem item
  passed : ∀ {c d : Cursor} {entry : Item}, layout c.rest = [] → c.rest.length < depth →
    item.answer c = some (entry, d) → Passed d.offset (item.frontier false c) ∧
      ∀ behind, c.rest = '<' :: behind → c.offset + 1 < d.offset
  fails : ∀ {c : Cursor}, layout c.rest = [] → c.rest.length < depth → item.answer c = none →
    Fails c (item.frontier false c)

section Sequences

variable {item : Parser Item} {depth : Nat} {c d : Cursor} {f : Frontier}

theorem frontier_nextItem (item : Parser Item) (c : Cursor) :
    (nextItem item).frontier false c = ((name .ruleName).frontier true c).join
      (if (ruleStart.answer c).isNone then item.frontier false c else .start) := by
  rw [nextItem, frontier_bind, frontier_absent, answer_absent, frontier_ruleStart]
  cases ruleStart.answer c <;> rfl

theorem Diagnoses.leaves (h : Diagnoses item depth) (hc : layout c.rest = [])
    (hdepth : c.rest.length < depth) (hanswer : (nextItem item).answer c = none) :
    Leaves [] c ((nextItem item).frontier false c) := by
  rw [answer_nextItem] at hanswer
  rw [frontier_nextItem]
  cases hrule : ruleStart.answer c with
  | some r =>
    have hstart : (ruleStart.answer c).isSome = true := hrule ▸ rfl
    rw [Option.isNone_some, if_neg Bool.false_ne_true, join_start]
    rcases identifier?_head_of_name (isSome_answer_name_of_ruleStart hstart) with
      hid | ⟨behind, hrest, hid⟩
    · have hangle := not_angle_of_isSome_identifier? hid
      rw [frontier_name_of_not_angle _ hangle, frontier_identifier, if_pos hid]
      exact .name hid hstart
    · rw [frontier_name_true_of_angle _ hrest, if_pos hid]
      exact .bracketed hrest hid
  | none =>
    rw [hrule, Option.isNone_none, if_pos rfl] at hanswer
    rw [Option.isNone_none, if_pos rfl]
    have hfails := h.fails hc hdepth hanswer
    generalize item.frontier false c = f at hfails ⊢
    cases hfails with
    | bracketed hrest hid =>
      rw [frontier_name_true_of_angle _ hrest, if_pos hid, join_of_gt (by simp)]
      exact .bracketed hrest hid
    | bracket hrest hid =>
      rw [frontier_name_true_of_angle _ hrest, hid, Option.isSome_none, if_neg Bool.false_ne_true,
        start_join]
      exact .bracket hrest hid
    | group hrest hlt hnames =>
      rw [frontier_name_true_of_other _ (by rw [hrest]; rfl) (by simp [hrest]), start_join]
      exact .group hrest hlt hnames
    | other hid hangle hparen =>
      rw [frontier_name_true_of_other _ hid hangle, start_join]
      exact .other hid hangle hparen

theorem Diagnoses.passed_nextItem (h : Diagnoses item depth) (hc : layout c.rest = [])
    (hdepth : c.rest.length < depth) {entry : Item}
    (hanswer : (nextItem item).answer c = some (entry, d)) :
    Passed d.offset ((nextItem item).frontier false c) ∧
      d.rest.length < c.rest.length ∧ c.offset < d.offset := by
  rw [answer_nextItem, Option.ite_none_right_eq_some] at hanswer
  obtain ⟨hstart, hitem⟩ := hanswer
  obtain ⟨hpassed, hangle⟩ := h.passed hc hdepth hitem
  obtain ⟨tokens, hspells, hpasses⟩ := h.takes c hc entry d hitem
  obtain ⟨hlength, hoffset⟩ := hpasses.lt hspells.ne_nil
  rw [frontier_nextItem, if_pos hstart]
  exact ⟨.join (offset_frontier_name_true_lt _ hoffset hangle) hpassed, hlength, hoffset⟩

theorem Diagnoses.sequence (h : Diagnoses item depth) (hc : layout c.rest = [])
    (hdepth : c.rest.length < depth) : ∃ items d, (Ebnf.sequence item).answer c = some (items, d) ∧
      Reaches c d ((Ebnf.sequence item).frontier false c) := by
  have hround : ∀ (d : Cursor) f entry e, Passed d.offset f ∧ d.rest.length < depth →
      (nextItem item).answer d.skip = some (entry, e) →
      e.rest.length < d.rest.length ∧ Passed e.offset
        (f.join ((nextItem item).frontier false d.skip)) ∧
          e.rest.length < depth := by
    rintro d f entry e ⟨hf, hd⟩ hanswer
    have hskip := d.length_skip_le
    have hplace := d.offset_le_skip
    obtain ⟨hpassed, hlength, hoffset⟩ :=
      h.passed_nextItem d.layout_skip (by omega) hanswer
    have hle := hf.offset_le
    exact ⟨by omega, .join (by omega) hpassed, by omega⟩
  have hend : ∀ (d : Cursor) f, Passed d.offset f ∧ d.rest.length < depth →
      (nextItem item).answer d.skip = none →
      Halts d (f.join ((nextItem item).frontier false d.skip)) := by
    rintro d f ⟨hf, hd⟩ hanswer
    have hskip := d.length_skip_le
    have hleaves := h.leaves d.layout_skip (by omega) hanswer
    exact (hf.mono d.offset_le_skip).join_leaves hleaves
  obtain ⟨items, d, hanswer, hhalts⟩ :=
    exists_answer_spaced false hround hend hc ⟨.start c.offset, hdepth⟩
  rw [start_join] at hhalts
  have hsome : ((spaced (nextItem item)).answer c).isSome = true := hanswer ▸ rfl
  have hsequence : (Ebnf.sequence item).answer c = some (items, d) := hanswer
  obtain ⟨_, _, hpasses⟩ := h.takes.sequence hc _ _ hsequence
  refine ⟨items, d, hsequence, Halts.reaches ?_ hpasses⟩
  exact (frontier_named_of_isSome .sequence hsome) ▸ hhalts

end Sequences

section Alternatives

variable {item : Parser Item} {depth : Nat} {c d : Cursor} {f : Frontier}

theorem nextAlternative_of_not_bar (item : Parser Item) (h : ∀ behind, c.rest ≠ '|' :: behind) :
    (nextAlternative item).answer c = none ∧ (nextAlternative item).frontier false c = .start := by
  have hword : (word "|").answer c = none := answer_word_of_not_head rfl h
  constructor
  · rw [nextAlternative, answer_bind, hword, Option.bind_none]
  · rw [nextAlternative, frontier_bind_of_none hword, frontier_word]

theorem Diagnoses.nextAlternative (h : Diagnoses item depth)
    (hdepth : c.rest.length < depth) {behind : List Char} (hrest : c.rest = '|' :: behind) :
    ∃ items d, (Ebnf.nextAlternative item).answer c = some (items, d) ∧
      Halts d ((Ebnf.nextAlternative item).frontier false c) ∧
        c.offset < ((Ebnf.nextAlternative item).frontier false c).offset ∧
          d.rest.length < c.rest.length := by
  have hword : (word "|").answer c = some ((), c.past ['|']) := answer_word_of_head rfl hrest
  obtain ⟨hlength, hoffset⟩ := Cursor.skip_past_lt hrest
  obtain ⟨items, d, hsequence, hreaches⟩ := h.sequence (c.past ['|']).layout_skip (by omega)
  have hanswer : (Ebnf.nextAlternative item).answer c = some (items, d) := by
    rw [Ebnf.nextAlternative, answer_bind, hword, Option.bind_some, answer_skipLayout_then, hsequence]
  have hfrontier : (Ebnf.nextAlternative item).frontier false c =
      (Ebnf.sequence item).frontier false (c.past ['|']).skip := by
    rw [Ebnf.nextAlternative, frontier_bind_of_some hword, frontier_word, start_join,
      frontier_skipLayout_then]
  rw [hfrontier]
  exact ⟨items, d, hanswer, hreaches.halts, Nat.lt_of_lt_of_le hoffset hreaches.offset_le,
    Nat.lt_of_le_of_lt hreaches.length_le hlength⟩

theorem Diagnoses.otherAlternatives (h : Diagnoses item depth) (hf : Halts c f)
    (hc : layout c.rest = []) (hdepth : c.rest.length < depth) :
    ∃ others d, (spaced (Ebnf.nextAlternative item)).answer c = some (others, d) ∧
      Halts d (f.join ((spaced (Ebnf.nextAlternative item)).frontier false c)) := by
  have hround : ∀ (d : Cursor) f items e, Halts d f ∧ d.rest.length < depth →
      (Ebnf.nextAlternative item).answer d.skip = some (items, e) →
      e.rest.length < d.rest.length ∧
        Halts e (f.join ((Ebnf.nextAlternative item).frontier false d.skip)) ∧
          e.rest.length < depth := by
    rintro d f items e ⟨hf, hd⟩ hanswer
    have hskip := d.length_skip_le
    rcases head_or '|' d.skip.rest with ⟨behind, hrest⟩ | hbar
    · obtain ⟨_, _, hfound, hhalts, hoffset, hlength⟩ :=
        h.nextAlternative (by omega) hrest
      obtain ⟨rfl, rfl⟩ := Prod.mk.inj (Option.some.inj (hanswer.symm.trans hfound))
      -- What was left in front of the bar goes no further than the bar.
      rw [join_of_lt (by rwa [hf.offset_eq hrest (by decide) (by decide)])]
      exact ⟨by omega, hhalts, by omega⟩
    · have hnone := (nextAlternative_of_not_bar item hbar).1
      exact absurd (hanswer.symm.trans hnone) (Option.some_ne_none _)
  have hend : ∀ (d : Cursor) f, Halts d f ∧ d.rest.length < depth →
      (Ebnf.nextAlternative item).answer d.skip = none →
      Halts d (f.join ((Ebnf.nextAlternative item).frontier false d.skip)) := by
    rintro d f ⟨hf, hd⟩ hnone
    have hskip := d.length_skip_le
    have hbar : ∀ behind, d.skip.rest ≠ '|' :: behind := by
      intro behind hrest
      obtain ⟨_, _, hfound, _⟩ := h.nextAlternative (by omega) hrest
      exact Option.some_ne_none _ (hfound.symm.trans hnone)
    rw [(nextAlternative_of_not_bar item hbar).2, join_start]
    exact hf
  exact exists_answer_spaced false hround hend hc ⟨hf, hdepth⟩

theorem Diagnoses.alternation (h : Diagnoses item depth) (hc : layout c.rest = [])
    (hdepth : c.rest.length < depth) :
    ∃ alternatives d, (Ebnf.alternation item).answer c = some (alternatives, d) ∧
      Reaches c d ((Ebnf.alternation item).frontier false c) := by
  obtain ⟨items, d, hfirst, hreaches⟩ := h.sequence hc hdepth
  have hlength := hreaches.length_le
  have hskip := d.length_skip_le
  obtain ⟨others, e, hothers, hhalts⟩ :=
    h.otherAlternatives hreaches.halts.skip d.layout_skip (by omega)
  have hothers : (spaced do word "|"; skipLayout; Ebnf.sequence item).answer d.skip =
      some (others, e) := hothers
  have hanswer : (Ebnf.alternation item).answer c = some (items :: others, e) := by
    rw [Ebnf.alternation, answer_named, answer_bind, hfirst, Option.bind_some,
      answer_skipLayout_then, answer_bind, hothers]
    rfl
  obtain ⟨_, _, hpasses⟩ := h.takes.alternation hc _ _ hanswer
  refine ⟨_, e, hanswer, Halts.reaches ?_ hpasses⟩
  rw [Ebnf.alternation, answer_named] at hanswer
  rw [Ebnf.alternation, frontier_named_of_isSome _ (by rw [hanswer]; rfl),
    frontier_bind_of_some hfirst, frontier_skipLayout_then, frontier_bind_of_some hothers,
    frontier_pure, join_start]
  exact hhalts

end Alternatives

end GrammarCompletion.Ebnf
