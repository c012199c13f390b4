import GrammarCompletion.Proofs.Ebnf.Frontier

/-! What the tokens of grammar text leave of an empty frontier. The names decide most: one that is
not there is an identifier in vain, behind its bracket if it has one, and inside the lookahead for
the next rule one that is there is met against the will of the reader. -/

open GrammarCompletion.Ebnf.Parser

namespace GrammarCompletion.Ebnf

open Frontier

section Heads

variable {c : Cursor} {text : String} {x : Char} {behind : List Char}

theorem head_or (x : Char) (cs : List Char) :
    (∃ behind, cs = x :: behind) ∨ ∀ behind, cs ≠ x :: behind := by
  by_cases h : ∃ behind, cs = x :: behind
  · exact .inl h
  · exact .inr fun behind hcs => h ⟨behind, hcs⟩

theorem answer_word_of_head (htext : text.toList = [x]) (hrest : c.rest = x :: behind) :
    (word text).answer c = some ((), c.past [x]) := by
  rw [answer_word, htext, if_pos ⟨behind, hrest.symm⟩]

theorem answer_word_of_not_head (htext : text.toList = [x])
    (hrest : ∀ behind, c.rest ≠ x :: behind) : (word text).answer c = none := by
  rw [answer_word, htext, if_neg]
  rintro ⟨behind, hbehind⟩
  exact hrest behind hbehind.symm

theorem exists_head_of_answer_word {r : Unit × Cursor} (htext : text.toList = [x])
    (h : (word text).answer c = some r) : ∃ behind, c.rest = x :: behind := by
  obtain ⟨⟨behind, hbehind⟩, _⟩ := answer_word_eq_some (a := r.1) (d := r.2) h
  rw [htext] at hbehind
  exact ⟨behind, hbehind.symm⟩

theorem identifier?_angle (behind : List Char) : identifier? ('<' :: behind) = none := rfl

theorem not_angle_of_isSome_identifier? {cs : List Char} (h : (identifier? cs).isSome = true) :
    ∀ behind, cs ≠ '<' :: behind := by
  rintro behind rfl
  exact Bool.false_ne_true h

end Heads

section Names

variable {c d : Cursor} {behind : List Char} {negated : Bool}

theorem isSome_answer_identifier (c : Cursor) :
    (identifier.answer c).isSome = (identifier? c.rest).isSome := by
  rw [identifier, answer_named, answer_map, answer_lexeme]
  cases identifier? c.rest <;> rfl

theorem frontier_identifier (negated : Bool) (c : Cursor) : identifier.frontier negated c =
    if (identifier? c.rest).isSome = negated then only negated .identifier c.offset else .start := by
  rw [← isSome_answer_identifier, identifier, frontier_named, answer_named]
  change (if _ then start.settle _ _ _ else start) = _
  rw [settle_start]

abbrev bracketed : Parser String := do word "<"; let id ← identifier; word ">"; return id

theorem name_eq (role : Construct) : name role = named role (bracketed <|> identifier) := rfl

theorem answer_bracketed_of_not_angle (h : ∀ behind, c.rest ≠ '<' :: behind) :
    bracketed.answer c = none := by
  rw [answer_bind, answer_word_of_not_head rfl h, Option.bind_none]

theorem frontier_bracketed_of_not_angle (h : ∀ behind, c.rest ≠ '<' :: behind) :
    bracketed.frontier negated c = .start := by
  rw [frontier_bind_of_none (answer_word_of_not_head rfl h), frontier_word]

theorem frontier_bracketed_of_angle (h : c.rest = '<' :: behind) :
    bracketed.frontier negated c = identifier.frontier negated (c.past ['<']) := by
  rw [frontier_bind_of_some (answer_word_of_head rfl h), frontier_word, start_join]
  cases hid : identifier.answer (c.past ['<']) with
  | none => exact frontier_bind_of_none hid
  | some r => rw [frontier_bind_of_some hid, frontier_word_return, join_start]

theorem isSome_of_answer_bracketed (h : c.rest = '<' :: behind)
    (hanswer : (bracketed.answer c).isSome = true) : (identifier? behind).isSome = true := by
  have hrest : (c.past ['<']).rest = behind := Cursor.rest_past h
  rw [answer_bind, answer_word_of_head rfl h, Option.bind_some, answer_bind] at hanswer
  rw [← hrest, ← isSome_answer_identifier]
  exact Option.isSome_of_isSome_bind hanswer

theorem answer_name_of_not_angle (role : Construct) (h : ∀ behind, c.rest ≠ '<' :: behind) :
    (name role).answer c = identifier.answer c := by
  rw [name_eq, answer_named, answer_orElse, answer_bracketed_of_not_angle h, Option.none_or]

theorem frontier_name_of_not_angle (role : Construct) (h : ∀ behind, c.rest ≠ '<' :: behind) :
    (name role).frontier negated c = identifier.frontier negated c := by
  have hanswer := answer_name_of_not_angle role h
  rw [name_eq, answer_named] at hanswer
  have hinner : Parser.frontier (bracketed <|> identifier) negated c =
      identifier.frontier negated c := by
    rw [frontier_orElse, frontier_bracketed_of_not_angle h, answer_bracketed_of_not_angle h]
    exact start_join _
  rw [name_eq, frontier_named, hinner, hanswer, isSome_answer_identifier, frontier_identifier]
  split
  · exact settle_only _ _ _ _
  · rfl

theorem answer_name_of_angle (role : Construct) (h : c.rest = '<' :: behind) :
    (name role).answer c = bracketed.answer c := by
  have hnone : identifier.answer c = none := by
    rw [← Option.not_isSome_iff_eq_none, isSome_answer_identifier, h]
    exact Bool.false_ne_true
  rw [name_eq, answer_named, answer_orElse, hnone, Option.or_none]

theorem offset_of_answer_bracketed {id : String} (h : bracketed.answer c = some (id, d)) :
    c.offset + 1 < d.offset := by
  simp only [answer_bind, Option.bind_eq_some_iff, Prod.exists] at h
  obtain ⟨_, _, hopen, _, _, hid, _, _, hclose, hpure⟩ := h
  obtain ⟨_, rfl⟩ := answer_word_eq_some hopen
  obtain ⟨_, rfl⟩ := answer_lexeme_eq_some hid
  obtain ⟨_, rfl⟩ := answer_word_eq_some hclose
  obtain ⟨_, rfl⟩ := Prod.mk.inj (Option.some.inj hpure)
  exact Nat.lt_succ_of_le (Nat.le_add_right _ _)

theorem frontier_brackets_of_angle (h : c.rest = '<' :: behind) :
    Parser.frontier (bracketed <|> identifier) negated c =
      (if (identifier? behind).isSome = negated then only negated .identifier (c.offset + 1)
        else .start).join
      (if (bracketed.answer c).isSome then .start
        else if false = negated then only negated .identifier c.offset else .start) := by
  have hrest : (c.past ['<']).rest = behind := Cursor.rest_past h
  have hoffset : (c.past ['<']).offset = c.offset + 1 := rfl
  rw [frontier_orElse, frontier_bracketed_of_angle h, frontier_identifier, frontier_identifier, hrest,
    hoffset, h, identifier?_angle, Option.isSome_none]

theorem frontier_name_of_angle (role : Construct) (h : c.rest = '<' :: behind) :
    (name role).frontier negated c =
      if (bracketed.answer c).isSome = negated
      then (Parser.frontier (bracketed <|> identifier) negated c).settle negated role c.offset
      else Parser.frontier (bracketed <|> identifier) negated c := by
  have hanswer := answer_name_of_angle role h
  rw [name_eq, answer_named] at hanswer
  rw [name_eq, frontier_named, hanswer]

theorem frontier_name_true_of_angle (role : Construct) (h : c.rest = '<' :: behind) :
    (name role).frontier true c =
      if (identifier? behind).isSome then only true .identifier (c.offset + 1) else .start := by
  have hbare : (if (bracketed.answer c).isSome = true then Frontier.start
      else if false = true then only true .identifier c.offset else .start) = .start := by
    split <;> rfl
  rw [frontier_name_of_angle role h, frontier_brackets_of_angle h, hbare, join_start]
  by_cases hid : (identifier? behind).isSome = true
  · rw [if_pos hid, settle_of_lt (by simp), ite_self]
  · have hnone : (bracketed.answer c).isSome ≠ true :=
      fun hsome => hid (isSome_of_answer_bracketed h hsome)
    rw [if_neg hid, if_neg hnone]

theorem frontier_name_false_of_angle (role : Construct) (h : c.rest = '<' :: behind)
    (hanswer : (name role).answer c = none) :
    (name role).frontier false c =
      only false .identifier (if (identifier? behind).isSome then c.offset else c.offset + 1) := by
  have hnone : (bracketed.answer c).isSome = false := by
    rw [← answer_name_of_angle role h, hanswer]
    rfl
  rw [frontier_name_of_angle role h, frontier_brackets_of_angle h, hnone, if_pos rfl,
    if_neg Bool.false_ne_true, if_pos rfl]
  cases hid : (identifier? behind).isSome with
  | true => exact (congrArg (settle · _ _ _) (start_join _)).trans (settle_only _ _ _ _)
  | false =>
    rw [if_pos rfl, join_of_gt (by simp), settle_of_lt (by simp)]
    rfl

theorem frontier_name_of_isSome (role : Construct) (h : ((name role).answer c).isSome = true) :
    (name role).frontier false c = .start := by
  rcases head_or '<' c.rest with ⟨behind, hrest⟩ | hangle
  · rw [answer_name_of_angle role hrest] at h
    rw [frontier_name_of_angle role hrest, frontier_brackets_of_angle hrest, h,
      isSome_of_answer_bracketed hrest h]
    rfl
  · rw [answer_name_of_not_angle role hangle, isSome_answer_identifier] at h
    rw [frontier_name_of_not_angle role hangle, frontier_identifier, h]
    rfl

theorem frontier_name_true_of_other (role : Construct) (hid : identifier? c.rest = none)
    (hangle : ∀ behind, c.rest ≠ '<' :: behind) : (name role).frontier true c = .start := by
  rw [frontier_name_of_not_angle role hangle, frontier_identifier, hid]
  rfl

theorem offset_frontier_name_true_lt (role : Construct) {o : Nat} (h : c.offset < o)
    (hangle : ∀ behind, c.rest = '<' :: behind → c.offset + 1 < o) :
    ((name role).frontier true c).offset < o := by
  have hstart : Frontier.start.offset < o := Nat.lt_of_le_of_lt (Nat.zero_le _) h
  rcases head_or '<' c.rest with ⟨behind, hrest⟩ | hbracket
  · rw [frontier_name_true_of_angle role hrest]
    split
    · rw [offset_only]
      exact hangle behind hrest
    · exact hstart
  · rw [frontier_name_of_not_angle role hbracket, frontier_identifier]
    split
    · rw [offset_only]
      exact h
    · exact hstart

end Names

section Starts

variable {c d : Cursor}

theorem frontier_ruleStart (negated : Bool) (c : Cursor) :
    ruleStart.frontier negated c = (name .ruleName).frontier negated c := by
  have hrest : ∀ (id : String) (d : Cursor),
      Parser.frontier (do skipLayout; assign; return id : Parser String) negated d = .start := by
    intro id d
    have hassign : ∀ e, assign.frontier negated e = .start := by
      intro e
      change Parser.frontier (word "::=" <|> word ":=") negated e = _
      rw [frontier_orElse, frontier_word, frontier_word, ite_self, start_join]
    rw [frontier_skipLayout_then, frontier_bind, hassign]
    cases assign.answer d.skip <;> rfl
  change Parser.frontier (name .ruleName >>= _) negated c = _
  cases hname : (name .ruleName).answer c with
  | none => exact frontier_bind_of_none hname
  | some r => rw [frontier_bind_of_some hname, hrest, join_start]

theorem isSome_answer_name_of_ruleStart (h : (ruleStart.answer c).isSome = true) :
    ((name .ruleName).answer c).isSome = true := by
  change (Parser.answer (name .ruleName >>= _) c).isSome = true at h
  rw [answer_bind] at h
  exact Option.isSome_of_isSome_bind h

theorem identifier?_head_of_name {role : Construct} (h : ((name role).answer c).isSome = true) :
    (identifier? c.rest).isSome = true ∨
      ∃ behind, c.rest = '<' :: behind ∧ (identifier? behind).isSome = true := by
  rcases head_or '<' c.rest with ⟨behind, hrest⟩ | hangle
  · rw [answer_name_of_angle _ hrest] at h
    exact .inr ⟨behind, hrest, isSome_of_answer_bracketed hrest h⟩
  · rw [answer_name_of_not_angle _ hangle, isSome_answer_identifier] at h
    exact .inl h

theorem offset_of_answer_ruleStart {id : String} (hc : layout c.rest = [])
    (h : ruleStart.answer c = some (id, d)) : c.offset + 1 < d.offset := by
  simp only [ruleStart, answer_bind, Option.bind_eq_some_iff, Prod.exists] at h
  obtain ⟨_, e, hname, _, _, hskip, _, _, hassign, hpure⟩ := h
  obtain ⟨_, rfl⟩ := Prod.mk.inj (Option.some.inj hskip)
  obtain ⟨_, rfl⟩ := Prod.mk.inj (Option.some.inj hpure)
  obtain ⟨_, ⟨_, _, rfl⟩, hfirst⟩ := takes_name .ruleName hc _ _ hname
  obtain ⟨_, ⟨_, _, rfl⟩, hsecond⟩ := takes_assign e.layout_skip _ _ hassign
  have hlt := (hfirst.lt (List.cons_ne_nil _ _)).2
  have hlt' := (hsecond.lt (List.cons_ne_nil _ _)).2
  have hplace := e.offset_le_skip
  omega

end Starts

section Terminals

theorem frontier_terminal (construct : Construct) (recognise : List Char → Option (List Char))
    (c : Cursor) : (terminal construct recognise).frontier false c =
      if (recognise c.rest).isSome then .start else only false construct c.offset := by
  rw [terminal, frontier_named_of_start construct rfl, answer_map, answer_lexeme]
  cases recognise c.rest <;> rfl

theorem offset_frontier_terminal_le (construct : Construct)
    (recognise : List Char → Option (List Char)) (c : Cursor) :
    ((terminal construct recognise).frontier false c).offset ≤ c.offset := by
  rw [frontier_terminal]
  split
  · exact Nat.zero_le _
  · exact Nat.le_refl _

theorem frontier_repetition (c : Cursor) : repetition.frontier false c =
    if (repetition.answer c).isSome then .start else only false .repetition c.offset := by
  refine frontier_named_of_start .repetition ?_
  simp only [frontier_orElse, frontier_word_return, ite_self, start_join]

end Terminals

end GrammarCompletion.Ebnf
