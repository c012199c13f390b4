import GrammarCompletion.Proofs.Ebnf.SequenceFaults

/-! Items leave what sequences count on. A group has its say beyond its bracket; of everything else an
item may begin with, the constructs tried in vain at one place amount to the item itself. As groups
nest, this is shown for items that nest one level deeper each time. -/

open GrammarCompletion.Ebnf.Parser

namespace GrammarCompletion.Ebnf

open Frontier

section Groups

variable {item : Parser Item} {depth : Nat} {c d : Cursor}

theorem frontier_group_of_not_head (item : Parser Item) (h : ∀ behind, c.rest ≠ '(' :: behind) :
    (Ebnf.group item).frontier false c = only false .group c.offset := by
  have hword : (word "(").answer c = none := answer_word_of_not_head rfl h
  rw [Ebnf.group, frontier_named_of_start .group, answer_bind, hword]
  · rfl
  · rw [frontier_bind_of_none hword, frontier_word]

theorem Diagnoses.group (h : Diagnoses item depth) (hdepth : c.rest.length < depth + 1)
    {behind : List Char} (hrest : c.rest = '(' :: behind) :
    ∃ alternatives d, Halts d ((Ebnf.group item).frontier false c) ∧
      c.offset < ((Ebnf.group item).frontier false c).offset ∧
        (Ebnf.group item).answer c =
          ((word ")").answer d.skip).map fun r => (alternatives, r.2) := by
  have hword : (word "(").answer c = some ((), c.past ['(']) := answer_word_of_head rfl hrest
  obtain ⟨hlength, hoffset⟩ := Cursor.skip_past_lt hrest
  obtain ⟨alternatives, d, hbody, hreaches⟩ := h.alternation (c.past ['(']).layout_skip (by omega)
  have hlt := Nat.lt_of_lt_of_le hoffset hreaches.offset_le
  have hanswer : (Ebnf.group item).answer c =
      ((word ")").answer d.skip).map fun r => (alternatives, r.2) := by
    rw [Ebnf.group, answer_named, answer_bind, hword, Option.bind_some, answer_skipLayout_then,
      answer_bind, hbody, Option.bind_some, answer_skipLayout_then, answer_bind]
    cases (word ")").answer d.skip <;> rfl
  have hfrontier : (Ebnf.group item).frontier false c =
      (Ebnf.alternation item).frontier false (c.past ['(']).skip := by
    rw [Ebnf.group, frontier_named, frontier_bind_of_some hword, frontier_word, start_join,
      frontier_skipLayout_then, frontier_bind_of_some hbody, frontier_skipLayout_then,
      frontier_word_return, join_start, settle_of_lt hlt, ite_self]
  rw [hfrontier]
  exact ⟨alternatives, d, hreaches.halts, hlt, hanswer⟩

theorem Diagnoses.group_passed (h : Diagnoses item depth) (hdepth : c.rest.length < depth + 1)
    {alternatives : List (List Item)}
    (hanswer : (Ebnf.group item).answer c = some (alternatives, d)) :
    ((Ebnf.group item).frontier false c).offset < d.offset := by
  have hhead : c.rest.head? = some '(' := by
    refine Decidable.not_not.1 fun hother => ?_
    exact Option.some_ne_none _ (hanswer.symm.trans (answer_group_eq_none item hother))
  obtain ⟨behind, hrest⟩ := List.head?_eq_some_iff.1 hhead
  obtain ⟨_, e, hhalts, _, hclose⟩ := h.group hdepth hrest
  rw [hanswer] at hclose
  obtain ⟨r, hword, heq⟩ := Option.map_eq_some_iff.1 hclose.symm
  obtain ⟨_, hclosed⟩ := exists_head_of_answer_word rfl hword
  rw [hhalts.offset_eq hclosed (by decide) (by decide), ← (Prod.mk.inj heq).2,
    (answer_word_eq_some hword).2]
  exact Nat.lt_succ_self _

end Groups

/-- What the text begins with, as far as it decides which construct is tried in vain. -/
inductive Begins (cs : List Char) : Prop where
  | name (h : (identifier? cs).isSome = true)
  | bracketed {behind : List Char} (h : cs = '<' :: behind) (hid : (identifier? behind).isSome = true)
  | bracket {behind : List Char} (h : cs = '<' :: behind) (hid : identifier? behind = none)
  | group {behind : List Char} (h : cs = '(' :: behind)
  | other (hid : identifier? cs = none) (hangle : ∀ behind, cs ≠ '<' :: behind)
      (hparen : ∀ behind, cs ≠ '(' :: behind)

theorem begins (cs : List Char) : Begins cs := by
  cases hid : identifier? cs with
  | some w => exact .name (hid ▸ rfl)
  | none =>
    rcases head_or '<' cs with ⟨behind, hrest⟩ | hangle
    · cases hinner : identifier? behind with
      | some w => exact .bracketed hrest (hinner ▸ rfl)
      | none => exact .bracket hrest hinner
    · rcases head_or '(' cs with ⟨behind, hrest⟩ | hparen
      · exact .group hrest
      · exact .other hid hangle hparen

section Primaries

variable {item : Parser Item} {depth : Nat} {c d : Cursor}

theorem frontier_primary_of_eq_none (h : (primary item).answer c = none) :
    (primary item).frontier false c = ((Ebnf.group item).frontier false c).join
      (join ⟨c.offset, [], [.literal, .charClass, .pattern]⟩
        ((name .reference).frontier false c)) := by
  simp only [answer_primary, Option.or_eq_none_iff, Option.map_eq_none_iff] at h
  obtain ⟨hgroup, hliteral, hclass, hpattern, _⟩ := h
  have hterminals : ∀ g : Frontier, (only false .literal c.offset).join
      ((only false .charClass c.offset).join ((only false .pattern c.offset).join g)) =
        join ⟨c.offset, [], [.literal, .charClass, .pattern]⟩ g := by
    intro g
    simp only [only_false, ← join_assoc, join_same]
    rfl
  have hterminal : ∀ construct recognise, recognise c.rest = none →
      ((terminal construct recognise).answer c).isSome = false ∧
        (terminal construct recognise).frontier false c = only false construct c.offset := by
    intro construct recognise hnone
    rw [frontier_terminal, terminal, answer_named, answer_map, answer_lexeme, hnone]
    exact ⟨rfl, rfl⟩
  simp only [primary, frontier_orElse, frontier_map, answer_map, Option.isSome_map, hgroup,
    hterminal _ _ hliteral, hterminal _ _ hclass, hterminal _ _ hpattern, Option.isSome_none,
    Bool.false_eq_true, if_false, hterminals]

theorem Diagnoses.fails_primary (h : Diagnoses item depth) (hdepth : c.rest.length < depth + 1)
    (hanswer : (primary item).answer c = none) :
    Fails c (((primary item).frontier false c).settle false .item c.offset) := by
  have hname : (name .reference).answer c = none := by
    simp only [answer_primary, Option.or_eq_none_iff, Option.map_eq_none_iff] at hanswer
    exact hanswer.2.2.2.2
  have hfive : ((only false .group c.offset).join
      (join ⟨c.offset, [], [.literal, .charClass, .pattern]⟩
        (only false .identifier c.offset))).settle false .item c.offset =
          only false .item c.offset := by
    simp only [only_false, join_same]
    exact settle_of_ne rfl (by simp) _ _
  rw [frontier_primary_of_eq_none hanswer]
  cases begins c.rest with
  | name hid =>
    have hangle := not_angle_of_isSome_identifier? hid
    rw [answer_name_of_not_angle _ hangle] at hname
    rw [← isSome_answer_identifier, hname] at hid
    exact absurd hid Bool.false_ne_true
  | bracketed hrest hid =>
    rw [frontier_group_of_not_head item (by simp [hrest]),
      frontier_name_false_of_angle _ hrest hname, if_pos hid, hfive]
    exact .bracketed hrest hid
  | bracket hrest hid =>
    rw [frontier_group_of_not_head item (by simp [hrest]),
      frontier_name_false_of_angle _ hrest hname, hid, Option.isSome_none,
      if_neg Bool.false_ne_true, join_of_lt (g := only false .identifier _) (Nat.lt_succ_self _),
      join_of_lt (Nat.lt_succ_self _), settle_of_lt (Nat.lt_succ_self _)]
    exact .bracket hrest hid
  | group hrest =>
    obtain ⟨_, _, hhalts, hlt, _⟩ := h.group hdepth hrest
    have hid : identifier? c.rest = none := by rw [hrest]; rfl
    rw [frontier_name_of_not_angle _ (by simp [hrest]), frontier_identifier, hid, Option.isSome_none,
      if_pos rfl, only_false, join_same, join_of_gt hlt, settle_of_lt hlt]
    exact .group hrest hlt hhalts.names_mem
  | other hid hangle hparen =>
    rw [frontier_group_of_not_head item hparen, frontier_name_of_not_angle _ hangle,
      frontier_identifier, hid, Option.isSome_none, if_pos rfl, hfive]
    exact .other hid hangle hparen

theorem offset_frontier_primary_le {complete : Option Repetition → Item}
    (hgroup : (Ebnf.group item).answer c = none)
    (hanswer : (primary item).answer c = some (complete, d)) :
    ((primary item).frontier false c).offset ≤ c.offset := by
  have hparen : ∀ behind, c.rest ≠ '(' :: behind := by
    intro behind hrest
    have hname : (name .reference).answer c = none :=
      answer_name_eq_none .reference (by simp [hrest, isIdentifierStart])
    simp [answer_primary, hgroup, hname, hrest, literal?, charClass?, pattern?] at hanswer
  refine offset_frontier_orElse_le ?_ fun hgroup => ?_
  · exact (frontier_group_of_not_head item hparen) ▸ Nat.le_refl _
  refine offset_frontier_orElse_le (offset_frontier_terminal_le _ _ c) fun hliteral => ?_
  refine offset_frontier_orElse_le (offset_frontier_terminal_le _ _ c) fun hclass => ?_
  refine offset_frontier_orElse_le (offset_frontier_terminal_le _ _ c) fun hpattern => ?_
  -- Nothing but the name is left to have been read.
  rw [primary, answer_orElse, hgroup, Option.none_or, answer_orElse, hliteral, Option.none_or,
    answer_orElse, hclass, Option.none_or, answer_orElse, hpattern, Option.none_or, answer_map,
    Option.map_eq_some_iff] at hanswer
  obtain ⟨r, hname, _⟩ := hanswer
  rw [frontier_map, frontier_name_of_isSome _ (hname ▸ rfl)]
  exact Nat.zero_le _

theorem Diagnoses.passed_primary (h : Diagnoses item depth) (hc : layout c.rest = [])
    (hdepth : c.rest.length < depth + 1) {complete : Option Repetition → Item}
    (hanswer : (primary item).answer c = some (complete, d)) :
    ((primary item).frontier false c).offset < d.offset := by
  obtain ⟨tokens, hspells, hpasses⟩ := h.takes.primary hc _ _ hanswer
  have hbare := hspells none
  rw [operator, List.append_nil] at hbare
  have hlt := (hpasses.lt hbare.ne_nil).2
  cases hgroup : (Ebnf.group item).answer c with
  | some r =>
    obtain ⟨alternatives, e⟩ := r
    have hfound := h.group_passed hdepth hgroup
    rw [answer_primary, hgroup, Option.map_some, Option.some_or] at hanswer
    obtain rfl := (Prod.mk.inj (Option.some.inj hanswer)).2
    rw [primary, frontier_orElse, frontier_map, answer_map, hgroup]
    exact (join_start _).symm ▸ hfound
  | none => exact Nat.lt_of_le_of_lt (offset_frontier_primary_le hgroup hanswer) hlt

theorem offset_of_answer_primary_of_angle {item : Parser Item} {behind : List Char}
    {complete : Option Repetition → Item} (h : c.rest = '<' :: behind)
    (hanswer : (primary item).answer c = some (complete, d)) : c.offset + 1 < d.offset := by
  have hgroup : (Ebnf.group item).answer c = none := answer_group_eq_none item (by simp [h])
  have hname : ((name .reference).answer c).map (fun r => (Item.reference r.1, r.2)) =
      some (complete, d) := by
    rw [← hanswer, answer_primary, hgroup, h]
    simp [literal?, charClass?, pattern?]
  obtain ⟨⟨id, e⟩, hfound, heq⟩ := Option.map_eq_some_iff.1 hname
  obtain ⟨_, rfl⟩ := Prod.mk.inj heq
  exact offset_of_answer_bracketed ((answer_name_of_angle _ h).symm.trans hfound)

end Primaries

section Items

variable {item : Parser Item} {depth : Nat} {c d : Cursor}

theorem answer_itemWith (item : Parser Item) (c : Cursor) : (itemWith item).answer c =
    ((primary item).answer c).bind fun r =>
      ((optional repetition).answer r.2.skip).map fun s => (r.1 s.1, s.2) := by
  rw [itemWith, answer_named, answer_bind]
  cases (primary item).answer c with
  | none => rfl
  | some r =>
    rw [Option.bind_some, Option.bind_some, answer_skipLayout_then, answer_bind]
    cases (optional repetition).answer r.2.skip <;> rfl

theorem passed_repetition (hc : layout c.rest = []) {o : Option Repetition}
    (h : (optional repetition).answer c = some (o, d)) :
    Passed d.offset (repetition.frontier false c) ∧ c.offset ≤ d.offset := by
  rw [answer_optional] at h
  rw [frontier_repetition]
  cases hrep : repetition.answer c with
  | none =>
    rw [hrep] at h
    obtain ⟨_, rfl⟩ := Prod.mk.inj (Option.some.inj h)
    exact ⟨⟨Nat.le_refl _, fun _ => rfl, fun _ => .inr rfl⟩, Nat.le_refl _⟩
  | some r =>
    rw [hrep] at h
    obtain ⟨_, rfl⟩ := Prod.mk.inj (Option.some.inj h)
    obtain ⟨_, _, hpasses⟩ := takes_repetition hc _ _ hrep
    exact ⟨.start _, hpasses.offset_le⟩

theorem Diagnoses.passed_itemWith (h : Diagnoses item depth) (hc : layout c.rest = [])
    (hdepth : c.rest.length < depth + 1) {entry : Item}
    (hanswer : (itemWith item).answer c = some (entry, d)) :
    Passed d.offset ((itemWith item).frontier false c) ∧
      ∀ behind, c.rest = '<' :: behind → c.offset + 1 < d.offset := by
  have hsome : ((itemWith item).answer c).isSome = true := hanswer ▸ rfl
  rw [answer_itemWith, Option.bind_eq_some_iff] at hanswer
  obtain ⟨⟨complete, e⟩, hprimary, hanswer⟩ := hanswer
  obtain ⟨⟨o, f⟩, hrep, heq⟩ := Option.map_eq_some_iff.1 hanswer
  obtain ⟨_, rfl⟩ : complete o = entry ∧ f = d := Prod.mk.inj heq
  obtain ⟨hlast, hend⟩ := passed_repetition e.layout_skip hrep
  have hplace := e.offset_le_skip
  have hfound := h.passed_primary hc hdepth hprimary
  constructor
  · have hfrontier : (itemWith item).frontier false c =
        ((primary item).frontier false c).join (repetition.frontier false e.skip) := by
      rw [itemWith, answer_named] at hsome
      rw [itemWith, frontier_named_of_isSome .item hsome, frontier_bind_of_some hprimary,
        frontier_skipLayout_then, frontier_bind_of_some hrep, frontier_optional, frontier_pure,
        join_start]
    rw [hfrontier]
    exact .join (by omega) hlast
  · intro behind hrest
    have hangle := offset_of_answer_primary_of_angle hrest hprimary
    omega

theorem Diagnoses.fails_itemWith (h : Diagnoses item depth)
    (hdepth : c.rest.length < depth + 1) (hanswer : (itemWith item).answer c = none) :
    Fails c ((itemWith item).frontier false c) := by
  have hprimary : (primary item).answer c = none := by
    cases hprimary : (primary item).answer c with
    | none => rfl
    | some r =>
      rw [answer_itemWith, hprimary, Option.bind_some, answer_optional] at hanswer
      exact absurd hanswer (Option.some_ne_none _)
  have hfails := h.fails_primary hdepth hprimary
  rw [itemWith, answer_named] at hanswer
  rw [itemWith, frontier_named_of_eq_none .item hanswer, frontier_bind_of_none hprimary]
  exact hfails

theorem Diagnoses.itemWith (h : Diagnoses item depth) : Diagnoses (itemWith item) (depth + 1) where
  takes := h.takes.itemWith
  passed := fun hc hdepth => h.passed_itemWith hc hdepth
  fails := fun _ hdepth => h.fails_itemWith hdepth

theorem diagnoses_itemUpTo (depth : Nat) : Diagnoses (itemUpTo depth) depth := by
  induction depth with
  | zero => exact ⟨takesItem_itemUpTo 0, fun _ h => absurd h (Nat.not_lt_zero _),
      fun _ h => absurd h (Nat.not_lt_zero _)⟩
  | succ depth ih => exact ih.itemWith

end Items

end GrammarCompletion.Ebnf
