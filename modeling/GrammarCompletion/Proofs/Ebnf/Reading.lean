import GrammarCompletion.Proofs.Ebnf.Stream

/-! Whoever writes a document in any of its spellings, with layout between the tokens, has it read
back. The proof follows the tokens: at a text whose next tokens spell a phrase, the parser of the
phrase answers it and leaves a text whose next tokens are those behind. -/

open GrammarCompletion.Ebnf.Parser

namespace GrammarCompletion.Ebnf

section Loops

variable {α : Type} {p : Parser α} {c : Cursor} {tokens : List (List Char)}

theorem Cursor.past_nil (c : Cursor) : c.past [] = c := rfl

theorem answer_skipLayout_then (p : Parser α) (c : Cursor) :
    (do skipLayout; p : Parser α).answer c = p.answer (c.past (layout c.rest)) := by
  rw [answer_bind, answer_skipLayout, Option.bind_some]

theorem answer_spaced_of_layout_eq_nil (p : Parser α) (h : layout c.rest = []) :
    (spaced p).answer c = (repeatUpTo (do skipLayout; p) (c.rest.length + 1)).answer c := by
  rw [answer_spaced, answer_repeatUpTo_succ, answer_skipLayout_then, h, Cursor.past_nil]

theorem reads_repeatUpTo_nil (bound : Nat) (h : Stream tokens (afterLayout c.rest))
    (hend : ∀ d : Cursor, Stream tokens d.rest → p.answer d = none) :
    Reads (repeatUpTo (do skipLayout; p) bound) c [] tokens := by
  refine ⟨c, ?_, h⟩
  cases bound with
  | zero => rfl
  | succ bound => rw [answer_repeatUpTo_succ, answer_skipLayout_then, hend _ h]

theorem reads_repeatUpTo_cons {bound : Nat} {a : α} {as : List α} {inner : List (List Char)}
    (mid : List (List Char)) (h : Stream inner (afterLayout c.rest))
    (hfirst : ∀ d : Cursor, Stream inner d.rest → Reads p d a mid)
    (hrest : ∀ d : Cursor, Stream mid (afterLayout d.rest) →
      Reads (repeatUpTo (do skipLayout; p) bound) d as tokens) :
    Reads (repeatUpTo (do skipLayout; p) (bound + 1)) c (a :: as) tokens := by
  obtain ⟨d, hd, hmid⟩ := hfirst (c.past (layout c.rest)) h
  obtain ⟨e, he, hstream⟩ := hrest d hmid
  refine ⟨e, ?_, hstream⟩
  rw [answer_repeatUpTo_succ, answer_skipLayout_then, hd]
  simp only [he, Option.map_some]

end Loops

section Phrases

inductive Closes : List (List Char) → Prop where
  | nil : Closes []
  | parenthesis (tokens : List (List Char)) : Closes ([')'] :: tokens)
  | semicolon (tokens : List (List Char)) : Closes ([';'] :: tokens)
  | rule {id : String} {name sign : List Char} (hname : IsName id name) (hsign : IsAssign sign)
      (tokens : List (List Char)) : Closes (name :: sign :: tokens)

def Ends (tokens : List (List Char)) : Prop := Closes tokens ∨ ∃ rest, tokens = ['|'] :: rest

def nextItem (item : Parser Item) : Parser Item := do
  absent ruleStart
  item

def nextAlternative (item : Parser Item) : Parser (List Item) := do
  word "|"
  skipLayout
  sequence item

variable {c : Cursor} {tokens : List (List Char)}

theorem answer_nextItem (item : Parser Item) (c : Cursor) :
    (nextItem item).answer c = if (ruleStart.answer c).isNone then item.answer c else none := by
  rw [nextItem, answer_bind, answer_absent]
  split <;> rfl

theorem answer_nextItem_of_head {depth : Nat} {head : Option Char} (h : c.rest.head? = head)
    (hhead : ∀ d ∈ head, startsItem d = false) :
    (nextItem (itemUpTo depth)).answer c = none := by
  rw [answer_nextItem, answer_itemUpTo_eq_none depth (by rwa [h]), ite_self]

theorem answer_nextItem_eq_none (depth : Nat) (hend : Ends tokens) (h : Stream tokens c.rest) :
    (nextItem (itemUpTo depth)).answer c = none := by
  rcases hend with hclose | ⟨rest, rfl⟩
  · cases hclose with
    | nil => exact answer_nextItem_of_head h.head?_eq (by simp)
    | parenthesis => exact answer_nextItem_of_head h.head?_eq (by simp; decide)
    | semicolon => exact answer_nextItem_of_head h.head?_eq (by simp; decide)
    | rule hname hsign =>
      obtain ⟨d, hd, _⟩ := reads_ruleStart hname hsign h
      rw [answer_nextItem, hd]
      rfl
  · exact answer_nextItem_of_head h.head?_eq (by simp; decide)

theorem follows_of_startsItem {d : Char} (hd : startsItem d = true) (ds : List Char)
    (rest : List (List Char)) : Follows ((d :: ds) :: rest) := by
  simp only [Follows, List.head?_cons, Option.bind_some, Option.mem_some_iff, forall_eq']
  refine ⟨?_, ?_, ?_, ?_⟩ <;> rintro rfl <;> simp [startsItem, isIdentifierStart] at hd

theorem IsName.follows {id : String} {token : List Char} (h : IsName id token)
    (rest : List (List Char)) : Follows (token :: rest) := by
  obtain ⟨d, ds, rfl, hstart⟩ := h.exists_start
  refine follows_of_startsItem ?_ ds rest
  rcases hstart with rfl | hstart
  · decide
  · simp [startsItem, hstart]

theorem IsTerminal.follows {token : List Char} (h : IsTerminal token)
    (rest : List (List Char)) : Follows (token :: rest) := by
  obtain ⟨c, cs, rfl, hc⟩ := h.exists_head
  refine follows_of_startsItem ?_ cs rest
  rcases hc with rfl | rfl | rfl | rfl <;> decide

theorem Ends.follows (h : Ends tokens) : Follows tokens := by
  rcases h with hclose | ⟨rest, rfl⟩
  · cases hclose with
    | nil => simp [Follows]
    | parenthesis | semicolon => simp [Follows]
    | rule hname => exact hname.follows _
  · simp [Follows]

theorem Spells.follows_append {item : Item} {first : List (List Char)}
    (h : Spells (.item item) first) (rest : List (List Char)) : Follows (first ++ rest) := by
  cases h with
  | reference hname => exact hname.follows _
  | terminal hlexeme => exact hlexeme.follows _
  | group => exact follows_of_startsItem (by decide) _ _

theorem Spells.length_le {items : List Item} {first : List (List Char)}
    (h : Spells (.sequence items) first) : items.length ≤ first.length := by
  induction items generalizing first with
  | nil => exact Nat.zero_le _
  | cons item items ih =>
    cases h with
    | cons hhead htail =>
      have hrest := ih htail
      have hfirst := List.length_pos_iff.2 hhead.ne_nil
      rw [List.length_cons, List.length_append]
      omega

theorem Spells.length_choice_le {alternatives : List (List Item)} {first : List (List Char)}
    (h : Spells (.choice alternatives) first) : alternatives.length ≤ first.length + 1 := by
  induction alternatives generalizing first with
  | nil => exact Nat.zero_le _
  | cons items alternatives ih =>
    cases h with
    | single => simp
    | more _ htail =>
      have hrest := ih htail
      rw [List.length_append, List.length_cons, List.length_cons]
      omega

/-- What the parsers make of the tokens of a phrase, whatever tokens come behind. An item is read
with the check that no rule begins there; a sequence and the alternatives behind the first one are
read by a loop. Groups nest less deep than there are tokens. -/
def IsRead : Phrase → List (List Char) → Prop
  | .item entry, tokens => ∀ (depth : Nat) (after : List (List Char)) (c : Cursor),
      tokens.length ≤ depth → Follows after → Stream (tokens ++ after) c.rest →
      Reads (nextItem (itemUpTo depth)) c entry after
  | .sequence items, tokens => ∀ (depth bound : Nat) (after : List (List Char)) (c : Cursor),
      tokens.length ≤ depth → items.length ≤ bound → Ends after →
      Stream (tokens ++ after) (afterLayout c.rest) →
      Reads (repeatUpTo (do skipLayout; nextItem (itemUpTo depth)) bound) c items after
  | .choice alternatives, tokens => ∃ first others, alternatives = first :: others ∧
      ∀ (depth : Nat) (after : List (List Char)), tokens.length ≤ depth → Closes after →
      ∃ mid : List (List Char), others.length ≤ mid.length ∧
        (∀ c : Cursor, Stream (tokens ++ after) c.rest →
          Reads (sequence (itemUpTo depth)) c first mid) ∧
        ∀ (bound : Nat) (c : Cursor), others.length ≤ bound → Stream mid (afterLayout c.rest) →
          Reads (repeatUpTo (do skipLayout; nextAlternative (itemUpTo depth)) bound) c others after

theorem reads_sequence {items : List Item} {first after : List (List Char)} {depth : Nat}
    (hspells : Spells (.sequence items) first) (hread : IsRead (.sequence items) first)
    (hdepth : first.length ≤ depth) (hend : Ends after) (h : Stream (first ++ after) c.rest) :
    Reads (sequence (itemUpTo depth)) c items after := by
  -- Each item takes a token, so the loop may go on as long as there are items.
  have hbound : items.length ≤ c.rest.length + 1 := by
    have hwidth := hspells.length_le
    have hlength := h.length_le
    rw [List.length_append] at hlength
    omega
  obtain ⟨d, hd, hstream⟩ := hread depth _ after c hdepth hbound hend (by rwa [h.afterLayout_eq])
  refine ⟨d, ?_, hstream⟩
  rw [← answer_spaced_of_layout_eq_nil _ h.layout_eq_nil] at hd
  exact hd

theorem reads_alternation {alternatives : List (List Item)} {first after : List (List Char)}
    {depth : Nat} (hread : IsRead (.choice alternatives) first) (hdepth : first.length ≤ depth)
    (hclose : Closes after) (h : Stream (first ++ after) c.rest) :
    Reads (alternation (itemUpTo depth)) c alternatives after := by
  obtain ⟨items, others, rfl, hread⟩ := hread
  obtain ⟨mid, hwidth, hfirst, hothers⟩ := hread depth after hdepth hclose
  refine (hfirst c h).bind_skip fun d hd => ?_
  have hbound : others.length ≤ d.rest.length + 1 := by
    have hlength := hd.length_le
    omega
  obtain ⟨e, he, hstream⟩ := hothers _ d hbound (by rwa [hd.afterLayout_eq])
  rw [← answer_spaced_of_layout_eq_nil _ hd.layout_eq_nil] at he
  have hspaced : (spaced do word "|"; skipLayout; sequence (itemUpTo depth)).answer d =
      some (others, e) := he
  exact ⟨e, by rw [answer_bind, hspaced]; rfl, hstream⟩

theorem answer_nextAlternative_eq_none (item : Parser Item) (hclose : Closes tokens)
    (h : Stream tokens c.rest) : (nextAlternative item).answer c = none := by
  have hhead : c.rest.head? ≠ some '|' := by
    rw [h.head?_eq]
    cases hclose with
    | nil => simp
    | parenthesis | semicolon => simp
    | rule hname =>
      obtain ⟨d, ds, rfl, hstart⟩ := hname.exists_start
      rintro hbar
      obtain rfl : d = '|' := Option.some.inj hbar
      simp [isIdentifierStart] at hstart
  rw [nextAlternative, answer_bind,
    answer_word_eq_none "|" (fun heq => hhead heq.symm) (by decide), Option.bind_none]

theorem reads_nextAlternative {item : Parser Item} {items : List Item}
    {inner after : List (List Char)} (h : Stream (['|'] :: inner) c.rest)
    (hread : ∀ d : Cursor, Stream inner d.rest → Reads (sequence item) d items after) :
    Reads (nextAlternative item) c items after :=
  (reads_word "|" h).bind_skip hread

theorem Spells.follows_sequence {items : List Item} {first after : List (List Char)}
    (h : Spells (.sequence items) first) (hend : Ends after) : Follows (first ++ after) := by
  cases h with
  | nil => exact hend.follows
  | cons hhead =>
    rw [List.append_assoc]
    exact hhead.follows_append _

theorem head_operator_append_ne_colon {rep : Option Repetition} (h : Follows tokens) :
    (operator rep ++ tokens).head?.bind List.head? ≠ some ':' := by
  rcases rep with _ | ⟨_ | _ | _⟩
  · exact fun heq => (h ':' heq).1 rfl
  all_goals simp [operator]

theorem reads_nextItem {item : Parser Item} {entry : Item} (hstart : ruleStart.answer c = none)
    (h : Reads item c entry tokens) : Reads (nextItem item) c entry tokens := by
  obtain ⟨d, hd, hstream⟩ := h
  exact ⟨d, by rw [answer_nextItem, hstart]; exact hd, hstream⟩

theorem isRead_reference {id : String} {rep : Option Repetition} {token : List Char}
    (hname : IsName id token) : IsRead (.item (.reference id rep)) (token :: operator rep) := by
  intro depth after c hdepth hfollow hstream
  obtain ⟨depth, rfl⟩ := Nat.exists_eq_add_one_of_ne_zero (Nat.ne_zero_of_lt hdepth)
  refine reads_nextItem ?_ ?_
  · exact answer_ruleStart_of_reference hname hstream (head_operator_append_ne_colon hfollow)
  · exact reads_itemWith (reads_primary_reference hname hstream) hfollow

theorem isRead_terminal {lexeme : String} {rep : Option Repetition}
    (hlexeme : IsTerminal lexeme.toList) :
    IsRead (.item (.terminal lexeme rep)) (lexeme.toList :: operator rep) := by
  intro depth after c hdepth hfollow hstream
  obtain ⟨depth, rfl⟩ := Nat.exists_eq_add_one_of_ne_zero (Nat.ne_zero_of_lt hdepth)
  refine reads_nextItem ?_ ?_
  · refine answer_ruleStart_eq_none ?_
    rw [hstream.head?_eq]
    obtain ⟨d, ds, heq, hd⟩ := hlexeme.exists_head
    simp only [heq, List.cons_append, List.head?_cons, Option.bind_some, Option.mem_some_iff,
      forall_eq']
    rcases hd with rfl | rfl | rfl | rfl <;> decide
  · exact reads_itemWith (reads_primary_terminal hlexeme hstream) hfollow

theorem isRead_group {alternatives : List (List Item)} {rep : Option Repetition}
    {inner : List (List Char)} (hbody : IsRead (.choice alternatives) inner) :
    IsRead (.item (.group alternatives rep)) (['('] :: (inner ++ [')'] :: operator rep)) := by
  intro depth after c hdepth hfollow hstream
  -- The opening bracket is a token too, so the body has one level of nesting less to itself.
  rw [List.length_cons, List.length_append] at hdepth
  obtain ⟨depth, rfl⟩ := Nat.exists_eq_add_one_of_ne_zero (Nat.ne_zero_of_lt hdepth)
  refine reads_nextItem ?_ ?_
  · refine answer_ruleStart_eq_none ?_
    rw [hstream.head?_eq]
    simp only [List.cons_append, List.head?_cons, Option.bind_some, Option.mem_some_iff,
      forall_eq']
    decide
  · refine reads_itemWith (reads_group hstream fun d hd => ?_) hfollow
    have hinner : Stream (inner ++ [')'] :: (operator rep ++ after)) d.rest := by
      simpa using hd
    exact reads_alternation hbody (by omega) (.parenthesis _) hinner

theorem isRead_cons {item : Item} {items : List Item} {first rest : List (List Char)}
    (hitem : IsRead (.item item) first) (hspells : Spells (.sequence items) rest)
    (hitems : IsRead (.sequence items) rest) :
    IsRead (.sequence (item :: items)) (first ++ rest) := by
  intro depth bound after c hdepth hbound hend hstream
  rw [List.length_append] at hdepth
  obtain ⟨bound, rfl⟩ := Nat.exists_eq_add_one_of_ne_zero (Nat.ne_zero_of_lt hbound)
  rw [List.append_assoc] at hstream
  refine reads_repeatUpTo_cons (rest ++ after) hstream ?_ ?_
  · intro d hd
    exact hitem depth _ d (by omega) (hspells.follows_sequence hend) hd
  · intro d hd
    exact hitems depth bound after d (by omega) (by simpa using hbound) hend hd

theorem isRead_single {items : List Item} {first : List (List Char)}
    (hspells : Spells (.sequence items) first) (hitems : IsRead (.sequence items) first) :
    IsRead (.choice [items]) first := by
  refine ⟨items, [], rfl, fun depth after hdepth hclose => ⟨after, Nat.zero_le _, ?_, ?_⟩⟩
  · intro c hstream
    exact reads_sequence hspells hitems hdepth (.inl hclose) hstream
  · intro bound c _ hstream
    exact reads_repeatUpTo_nil bound hstream fun d hd =>
      answer_nextAlternative_eq_none _ hclose hd

theorem isRead_more {items : List Item} {alternatives : List (List Item)}
    {first rest : List (List Char)} (hspells : Spells (.sequence items) first)
    (hitems : IsRead (.sequence items) first) (hspells' : Spells (.choice alternatives) rest)
    (hothers : IsRead (.choice alternatives) rest) :
    IsRead (.choice (items :: alternatives)) (first ++ ['|'] :: rest) := by
  have hlength := hspells'.length_choice_le
  obtain ⟨next, others, rfl, hothers⟩ := hothers
  refine ⟨items, next :: others, rfl, fun depth after hdepth hclose => ?_⟩
  rw [List.length_append, List.length_cons] at hdepth
  obtain ⟨mid, hwidth, hnext, hloop⟩ := hothers depth after (by omega) hclose
  -- The first sequence leaves the bar, where the loop over the others takes up.
  refine ⟨['|'] :: (rest ++ after), ?_, ?_, ?_⟩
  · simp only [List.length_cons, List.length_append] at hlength ⊢
    omega
  · intro c hstream
    rw [List.append_assoc] at hstream
    exact reads_sequence hspells hitems (by omega) (.inr ⟨_, rfl⟩) hstream
  · intro bound c hbound hstream
    obtain ⟨bound, rfl⟩ := Nat.exists_eq_add_one_of_ne_zero (Nat.ne_zero_of_lt hbound)
    refine reads_repeatUpTo_cons mid hstream (fun d hd => reads_nextAlternative hd hnext) ?_
    intro d hd
    exact hloop bound d (by simpa using hbound) hd

theorem Spells.isRead {phrase : Phrase} {first : List (List Char)} (h : Spells phrase first) :
    IsRead phrase first := by
  induction h with
  | reference hname => exact isRead_reference hname
  | terminal hlexeme => exact isRead_terminal hlexeme
  | group _ ih => exact isRead_group ih
  | nil =>
    intro depth bound after c _ _ hend hstream
    exact reads_repeatUpTo_nil bound hstream fun d hd => answer_nextItem_eq_none depth hend hd
  | cons _ htail ihhead ihtail => exact isRead_cons ihhead htail ihtail
  | single hitems ih => exact isRead_single hitems ih
  | more hhead htail ihhead ihtail => exact isRead_more hhead ihhead htail ihtail

end Phrases

section Documents

variable {c : Cursor} {definition : Definition} {document : Document}
  {first tokens : List (List Char)}

theorem SpellsAll.closes (h : SpellsAll document tokens) : Closes tokens := by
  cases h with
  | nil => exact .nil
  | cons hrule =>
    cases hrule with
    | unended hname hsign => exact .rule hname hsign _
    | ended hname hsign => exact .rule hname hsign _

theorem SpellsAll.head_ne_semicolon (h : SpellsAll document tokens) :
    tokens.head?.bind List.head? ≠ some ';' := by
  have hname : ∀ {id : String} {token : List Char}, IsName id token →
      token.head? ≠ some ';' := by
    intro id token hname
    obtain ⟨d, ds, rfl, hstart⟩ := hname.exists_start
    intro heq
    obtain rfl : d = ';' := Option.some.inj heq
    simp [isIdentifierStart] at hstart
  cases h with
  | nil => simp
  | cons hrule =>
    cases hrule with
    | unended h => exact hname h
    | ended h => exact hname h

theorem reads_rule {depth : Nat} (hrule : SpellsRule definition first)
    (hrest : SpellsAll document tokens) (hdepth : first.length ≤ depth)
    (h : Stream (first ++ tokens) c.rest) :
    Reads (rule (itemUpTo depth)) c definition tokens := by
  cases hrule with
  | unended hname hsign hbody =>
    refine (reads_ruleStart hname hsign h).bind_skip fun d hd => ?_
    refine (reads_alternation hbody.isRead ?_ hrest.closes hd).bind_skip fun e he => ?_
    · simp only [List.length_cons] at hdepth
      omega
    · -- The body ends with the text or in front of a name, and no name begins with a semicolon.
      have hnone : (word ";").answer e = none := by
        refine answer_word_eq_none ";" ?_ (by decide)
        rw [he.head?_eq]
        exact hrest.head_ne_semicolon.symm
      refine ⟨e, by simp [hnone], ?_⟩
      rw [he.afterLayout_eq]
      exact he
  | ended hname hsign hbody =>
    simp only [List.cons_append, List.append_assoc] at h
    refine (reads_ruleStart hname hsign h).bind_skip fun d hd => ?_
    refine (reads_alternation hbody.isRead ?_ (.semicolon tokens) hd).bind_skip fun e he => ?_
    · simp only [List.length_cons, List.length_append] at hdepth
      omega
    · obtain ⟨f, hf, hstream⟩ := reads_word ";" he
      exact ⟨f, by simp [hf], hstream⟩

theorem reads_rules {depth bound : Nat} (h : SpellsAll document tokens)
    (hdepth : tokens.length ≤ depth) (hbound : document.length ≤ bound)
    (hstream : Stream tokens (afterLayout c.rest)) :
    Reads (repeatUpTo (do skipLayout; rule (itemUpTo depth)) bound) c document [] := by
  induction h generalizing bound c with
  | nil =>
    refine reads_repeatUpTo_nil bound hstream fun d hd => ?_
    have hstart : ruleStart.answer d = none := by
      refine answer_ruleStart_eq_none ?_
      rw [hd.head?_eq]
      simp
    rw [rule, answer_named, answer_bind, hstart, Option.bind_none]
  | @cons _ _ first rest hrule htail ih =>
    rw [List.length_append] at hdepth
    obtain ⟨bound, rfl⟩ := Nat.exists_eq_add_one_of_ne_zero (Nat.ne_zero_of_lt hbound)
    refine reads_repeatUpTo_cons rest hstream ?_ ?_
    · intro d hd
      exact reads_rule hrule htail (by omega) hd
    · intro d hd
      exact ih (by omega) (by simpa using hbound) hd

theorem SpellsAll.length_le (h : SpellsAll document tokens) :
    document.length ≤ tokens.length := by
  induction h with
  | nil => exact Nat.le_refl 0
  | cons hrule _ ih =>
    rw [List.length_cons, List.length_append]
    cases hrule <;> simp only [List.length_cons] <;> omega

theorem answer_grammar {depth : Nat} (h : SpellsAll document tokens)
    (hstream : Stream tokens (afterLayout c.rest)) (hdepth : tokens.length ≤ depth) :
    ∃ d, (grammar (itemUpTo depth)).answer c = some (document, d) := by
  have hlength := h.length_le
  have hstream' : Stream tokens (c.past (layout c.rest)).rest := hstream
  have hbound : document.length ≤ (c.past (layout c.rest)).rest.length + 1 := by
    have := hstream'.length_le
    omega
  obtain ⟨d, hd, hend⟩ := reads_rules h hdepth hbound (by rwa [hstream'.afterLayout_eq])
  rw [← answer_spaced_of_layout_eq_nil _ hstream'.layout_eq_nil] at hd
  have hrest : (d.past (layout d.rest)).rest = [] := by
    generalize hcs : (d.past (layout d.rest)).rest = cs
    have hnil : Stream [] cs := hcs ▸ hend
    cases hnil
    rfl
  refine ⟨d.past (layout d.rest), ?_⟩
  simp only [grammar, answer_named, answer_bind, answer_skipLayout, Option.bind_some, hd,
    answer_atEnd, hrest, if_true, answer_pure]

theorem parse_of_stream {text : String} (h : SpellsAll document tokens)
    (hstream : Stream tokens (afterLayout text.toList)) : parse text = .ok document := by
  have hdepth : tokens.length ≤ text.toList.length + 1 := by
    have hle := hstream.length_le
    have := length_afterLayout_le text.toList
    omega
  obtain ⟨d, hd⟩ := answer_grammar (c := ⟨0, text.toList⟩) h hstream hdepth
  have hread : (readText text.toList).result = some (document, d) := hd
  unfold parse
  generalize readText text.toList = outcome at hread
  obtain ⟨result, attempts⟩ := outcome
  obtain rfl : result = some (document, d) := hread
  rfl

/-- A text that writes a document is read as that document, unless a pattern in it begins like a
block comment. -/
theorem parse_of_renders {text : String}
    (hstar : ∀ lexeme ∈ document.terminals, ¬ ['/', '*'] <+: lexeme.toList)
    (h : document.Renders IsSeparator text.toList) : parse text = .ok document := by
  obtain ⟨tokens, before, body, tail, hspells, hbefore, hbody, htail, htext⟩ := h
  refine parse_of_stream hspells ?_
  rw [htext, hbefore.afterLayout_append]
  exact stream_of_laidOut hbody (hspells.isToken hstar) htail

end Documents

end GrammarCompletion.Ebnf
