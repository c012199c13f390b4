import GrammarCompletion.Ebnf.Reader
import GrammarCompletion.Proofs.Ebnf.Answer
import GrammarCompletion.Proofs.Ebnf.Rendering

/-! Reading a text token by token. In text with layout between its tokens, one meets the tokens in
turn; a parser of a token answers it and leaves the tokens behind, and the first character of the
next token decides which parsers refuse. -/

open GrammarCompletion.Ebnf.Parser

namespace GrammarCompletion.Ebnf

/-- The tokens are what one meets in the text, stepping over layout behind each, until `rest` is
left. A token is no layout where it stands, and no identifier goes on behind its token. -/
inductive Meets (rest : List Char) : List (List Char) → List Char → Prop where
  | nil : Meets rest [] rest
  | cons {token behind : List Char} {tokens : List (List Char)}
      (htoken : token ≠ [] ∧ layout (token ++ behind) = [])
      (hbehind : isIdentifier token = true → ∀ c ∈ behind.head?, isIdentifierRest c = false)
      (tail : Meets rest tokens (afterLayout behind)) :
      Meets rest (token :: tokens) (token ++ behind)

theorem Meets.append {rest mid text : List Char} {first second : List (List Char)}
    (h : Meets mid first text) (h' : Meets rest second mid) :
    Meets rest (first ++ second) text := by
  induction h with
  | nil => exact h'
  | cons htoken hbehind _ ih => exact .cons htoken hbehind ih

theorem length_afterLayout_le (text : List Char) : (afterLayout text).length ≤ text.length := by
  rw [afterLayout, List.length_drop]
  omega

theorem Meets.length_le {rest text : List Char} {tokens : List (List Char)}
    (h : Meets rest tokens text) : rest.length + tokens.length ≤ text.length := by
  induction h with
  | nil => exact Nat.le_refl _
  | @cons token behind tokens htoken _ _ ih =>
    have hpos := List.length_pos_iff.2 htoken.1
    have hle := length_afterLayout_le behind
    rw [List.length_cons, List.length_append]
    omega

abbrev Stream : List (List Char) → List Char → Prop := Meets []

namespace Stream

variable {tokens : List (List Char)} {text : List Char}

theorem layout_eq_nil (h : Stream tokens text) : layout text = [] := by
  cases h with
  | nil => exact layout_of_none layoutPiece?_nil
  | cons htoken => exact htoken.2

theorem afterLayout_eq (h : Stream tokens text) : afterLayout text = text :=
  afterLayout_of_layout_eq_nil h.layout_eq_nil

theorem length_le (h : Stream tokens text) : tokens.length ≤ text.length := by
  have hle := Meets.length_le h
  rwa [List.length_nil, Nat.zero_add] at hle

theorem head?_eq (h : Stream tokens text) : text.head? = tokens.head?.bind List.head? := by
  cases h with
  | nil => rfl
  | @cons token rest tokens htoken =>
    cases token with
    | nil => exact absurd rfl htoken.1
    | cons c token => rfl

end Stream

section LaidOutText

theorem isIdentifierRest_of_isBlank {c : Char} (h : isBlank c = true) :
    isIdentifierRest c = false := by
  simp only [isBlank, Bool.or_eq_true, beq_iff_eq] at h
  rcases h with ((rfl | rfl) | rfl) | rfl <;> decide

theorem IsLayout.head_not_rest {gap : List Char} (h : IsLayout gap) :
    ∀ c ∈ gap.head?, isIdentifierRest c = false := by
  cases h with
  | nil => simp
  | cons hpiece =>
    cases hpiece with
    | blank hblank => simpa using isIdentifierRest_of_isBlank hblank
    | lineComment | blockComment =>
      simp only [List.cons_append, List.head?_cons, Option.mem_some_iff, forall_eq']
      decide

theorem IsOpenEnd.head_not_rest {tail : List Char} (h : IsOpenEnd tail) :
    ∀ c ∈ tail.head?, isIdentifierRest c = false := by
  obtain rfl | ⟨text, _, rfl⟩ := h
  · simp
  · simp only [List.head?_cons, Option.mem_some_iff, forall_eq']
    decide

theorem stream_of_laidOut {tokens : List (List Char)} {body tail : List Char}
    (h : LaidOut IsSeparator tokens body) (htokens : ∀ token ∈ tokens, IsToken token)
    (htail : IsOpenEnd tail) : Stream tokens (afterLayout (body ++ tail)) := by
  induction h with
  | nil =>
    rw [List.nil_append, htail.afterLayout_eq_nil]
    exact .nil
  | @last token after hafter =>
    have htoken := htokens token List.mem_cons_self
    rw [List.append_assoc, afterLayout_of_layout_eq_nil (htoken.layout_append _)]
    refine .cons ⟨htoken.ne_nil, htoken.layout_append _⟩ ?_ ?_
    · intro _ c hc
      cases after with
      | nil => exact htail.head_not_rest c hc
      | cons d after => exact hafter.head_not_rest c hc
    · rw [hafter.afterLayout_append, htail.afterLayout_eq_nil]
      exact .nil
  | @cons token between next text tokens hbetween _ ih =>
    have htoken := htokens token List.mem_cons_self
    rw [List.append_assoc, afterLayout_of_layout_eq_nil (htoken.layout_append _), List.append_assoc]
    refine .cons ⟨htoken.ne_nil, htoken.layout_append _⟩ ?_ ?_
    · -- Only an empty gap would let the next token continue a name.
      intro _ c hc
      cases between with
      | nil => exact absurd rfl hbetween.2
      | cons d between => exact hbetween.1.head_not_rest c hc
    · rw [hbetween.1.afterLayout_append]
      exact ih fun t ht => htokens t (List.mem_cons_of_mem _ ht)

end LaidOutText

/-- The parser answers `a` here and leaves the tokens, perhaps behind layout. -/
def Reads {α : Type} (p : Parser α) (c : Cursor) (a : α) (tokens : List (List Char)) : Prop :=
  ∃ d, p.answer c = some (a, d) ∧ Stream tokens (afterLayout d.rest)

section Names

variable {c : Cursor} {tokens : List (List Char)}

theorem Reads.bind_skip {α β : Type} {p : Parser α} {q : α → Parser β} {a : α} {b : β}
    {after : List (List Char)} (hp : Reads p c a tokens)
    (hq : ∀ d : Cursor, Stream tokens d.rest → Reads (q a) d b after) :
    Reads (do let a ← p; skipLayout; q a) c b after := by
  obtain ⟨d, hd, hstream⟩ := hp
  obtain ⟨e, he, hafter⟩ := hq (d.past (layout d.rest)) hstream
  refine ⟨e, ?_, hafter⟩
  simp only [answer_bind, hd, Option.bind_some, answer_skipLayout, he]

theorem reads_word (text : String) (h : Stream (text.toList :: tokens) c.rest) :
    Reads (word text) c () tokens := by
  generalize hrest : c.rest = cs at h
  cases h with
  | cons _ _ htail =>
    refine ⟨c.past text.toList, ?_, ?_⟩
    · rw [answer_word, hrest, if_pos (List.prefix_append _ _)]
    · rwa [Cursor.rest_past hrest]

theorem answer_word_eq_none (text : String) (h : text.toList.head? ≠ c.rest.head?)
    (hne : text.toList ≠ []) : (word text).answer c = none := by
  rw [answer_word, if_neg]
  rintro ⟨rest, hrest⟩
  obtain ⟨d, ds, hds⟩ := List.exists_cons_of_ne_nil hne
  rw [← hrest, hds] at h
  exact h rfl

theorem answer_identifier {w rest : List Char} (hc : c.rest = w ++ rest)
    (hw : isIdentifier w = true) (hrest : ∀ d ∈ rest.head?, isIdentifierRest d = false) :
    identifier.answer c = some (String.ofList w, c.past w) := by
  rw [identifier, answer_named, answer_map, answer_lexeme, hc, identifier?_append hw hrest]
  rfl

theorem exists_start_of_isIdentifier {w : List Char} (h : isIdentifier w = true) :
    ∃ d ds, w = d :: ds ∧ isIdentifierStart d = true := by
  cases w with
  | nil => simp [isIdentifier] at h
  | cons d ds =>
    simp only [isIdentifier, Bool.and_eq_true] at h
    exact ⟨d, ds, rfl, h.1⟩

theorem IsName.exists_start {id : String} {token : List Char} (h : IsName id token) :
    ∃ d ds, token = d :: ds ∧ (d = '<' ∨ isIdentifierStart d = true) := by
  cases h with
  | bare hid =>
    obtain ⟨d, ds, hds, hstart⟩ := exists_start_of_isIdentifier hid
    exact ⟨d, ds, hds, .inr hstart⟩
  | bracketed => exact ⟨'<', _, rfl, .inl rfl⟩

theorem answer_word_of_prefix (text : String) {rest : List Char}
    (h : c.rest = text.toList ++ rest) : (word text).answer c = some ((), c.past text.toList) := by
  rw [answer_word, h, if_pos (List.prefix_append _ _)]

theorem reads_name {id : String} {token : List Char} (hname : IsName id token)
    (h : Stream (token :: tokens) c.rest) (role : Construct) : Reads (name role) c id tokens := by
  generalize hcs : c.rest = cs at h
  cases h with
  | @cons _ rest _ _ hrest htail =>
    cases hname with
    | bare hid =>
      have hopen : (word "<").answer c = none := by
        refine answer_word_eq_none "<" ?_ (by decide)
        obtain ⟨d, ds, hds, hstart⟩ := exists_start_of_isIdentifier hid
        rw [hcs, hds]
        rintro hhead
        obtain rfl : '<' = d := Option.some.inj hhead
        simp [isIdentifierStart] at hstart
      refine ⟨c.past id.toList, ?_, ?_⟩
      · simp only [name, answer_named, answer_orElse, answer_bind, hopen, Option.bind_none,
          Option.none_or, answer_identifier hcs hid (hrest hid), String.ofList_toList]
      · rwa [Cursor.rest_past hcs]
    | bracketed hid =>
      have hopen : (word "<").answer c = some ((), c.past "<".toList) := by
        rw [answer_word, hcs, if_pos (by simp)]
      have hinner : (c.past "<".toList).rest = id.toList ++ '>' :: rest :=
        Cursor.rest_past (by simpa using hcs)
      have hread := answer_identifier hinner hid (by simp [isIdentifierRest])
      have hbehind := Cursor.rest_past hinner
      have hclose := answer_word_of_prefix ">" hbehind
      refine ⟨((c.past "<".toList).past id.toList).past ">".toList, ?_, ?_⟩
      · simp only [name, answer_named, answer_orElse, answer_bind, hopen, Option.bind_some, hread,
          hclose, answer_pure, String.ofList_toList, Option.some_or]
      · rwa [Cursor.rest_past hbehind]

theorem reads_assign {sign : List Char} (hsign : IsAssign sign)
    (h : Stream (sign :: tokens) c.rest) : Reads assign c () tokens := by
  cases hsign with
  | long =>
    obtain ⟨d, hd, hstream⟩ := reads_word "::=" h
    exact ⟨d, by rw [assign, answer_orElse, hd, Option.some_or], hstream⟩
  | short =>
    have hlong : (word "::=").answer c = none := by
      generalize hcs : c.rest = cs at h
      cases h with
      | cons => simp [hcs]
    obtain ⟨d, hd, hstream⟩ := reads_word ":=" h
    exact ⟨d, by rw [assign, answer_orElse, hlong, hd, Option.none_or], hstream⟩

theorem reads_ruleStart {id : String} {token sign : List Char} (hname : IsName id token)
    (hsign : IsAssign sign) (h : Stream (token :: sign :: tokens) c.rest) :
    Reads ruleStart c id tokens := by
  refine (reads_name hname h .ruleName).bind_skip fun d hd => ?_
  obtain ⟨e, he, hstream⟩ := reads_assign hsign hd
  exact ⟨e, by simp [he], hstream⟩

end Names

section Refusals

variable {c : Cursor} {tokens : List (List Char)}

theorem answer_name_eq_none (role : Construct)
    (h : ∀ d ∈ c.rest.head?, d ≠ '<' ∧ isIdentifierStart d = false) :
    (name role).answer c = none := by
  have hopen : (word "<").answer c = none := by
    refine answer_word_eq_none "<" ?_ (by decide)
    intro hhead
    exact (h '<' hhead.symm).1 rfl
  have hid : identifier? c.rest = none := by
    cases hcs : c.rest with
    | nil => rfl
    | cons d ds => simp [identifier?, (h d (by simp [hcs])).2]
  simp only [name, identifier, answer_named, answer_orElse, answer_bind, hopen, Option.bind_none,
    answer_map, answer_lexeme, hid, Option.map_none, Option.none_or]

theorem answer_assign_eq_none (h : c.rest.head? ≠ some ':') : assign.answer c = none := by
  rw [assign, answer_orElse, answer_word_eq_none "::=" (fun heq => h heq.symm) (by decide),
    answer_word_eq_none ":=" (fun heq => h heq.symm) (by decide), Option.none_or]

theorem answer_ruleStart_eq_none
    (h : ∀ d ∈ c.rest.head?, d ≠ '<' ∧ isIdentifierStart d = false) :
    ruleStart.answer c = none := by
  rw [ruleStart, answer_bind, answer_name_eq_none .ruleName h, Option.bind_none]

theorem answer_ruleStart_of_reference {id : String} {token : List Char} (hname : IsName id token)
    (h : Stream (token :: tokens) c.rest)
    (hfollow : tokens.head?.bind List.head? ≠ some ':') : ruleStart.answer c = none := by
  obtain ⟨d, hd, hstream⟩ := reads_name hname h .ruleName
  have hassign : assign.answer (d.past (layout d.rest)) = none := by
    refine answer_assign_eq_none ?_
    rw [← hstream.head?_eq] at hfollow
    exact hfollow
  simp only [ruleStart, answer_bind, hd, Option.bind_some, answer_skipLayout, hassign,
    Option.bind_none]

theorem answer_group_eq_none (item : Parser Item) (h : c.rest.head? ≠ some '(') :
    (group item).answer c = none := by
  rw [group, answer_named, answer_bind, answer_word_eq_none "(" (fun heq => h heq.symm) (by decide),
    Option.bind_none]

def startsItem (c : Char) : Bool :=
  c == '(' || c == '"' || c == '\'' || c == '[' || c == '/' || c == '<' || isIdentifierStart c

theorem answer_primary (item : Parser Item) (c : Cursor) :
    (primary item).answer c =
      (((group item).answer c).map fun r => (Item.group r.1, r.2)).or
        (((literal? c.rest).map fun w => (Item.terminal (String.ofList w), c.past w)).or
          (((charClass? c.rest).map fun w => (Item.terminal (String.ofList w), c.past w)).or
            (((pattern? c.rest).map fun w => (Item.terminal (String.ofList w), c.past w)).or
              (((name .reference).answer c).map fun r => (Item.reference r.1, r.2))))) := by
  simp only [primary, terminal, answer_orElse, answer_map, answer_named, answer_lexeme,
    Option.map_map, Function.comp_def]

theorem answer_itemUpTo_eq_none (depth : Nat)
    (h : ∀ d ∈ c.rest.head?, startsItem d = false) : (itemUpTo depth).answer c = none := by
  cases depth with
  | zero => rfl
  | succ depth =>
    have hprimary : (primary (itemUpTo depth)).answer c = none := by
      have hgroup : (group (itemUpTo depth)).answer c = none := by
        refine answer_group_eq_none _ fun hhead => ?_
        simpa [startsItem] using h '(' hhead
      have hname : (name .reference).answer c = none := by
        refine answer_name_eq_none .reference fun d hd => ?_
        have := h d hd
        simp only [startsItem, Bool.or_eq_false_iff, beq_eq_false_iff_ne] at this
        exact ⟨this.1.2, this.2⟩
      rw [answer_primary, hgroup, hname]
      cases hcs : c.rest with
      | nil => rfl
      | cons d ds =>
        have := h d (by simp [hcs])
        simp only [startsItem, Bool.or_eq_false_iff, beq_eq_false_iff_ne] at this
        simp [literal?, charClass?, pattern?, this]
    rw [itemUpTo, itemWith, answer_named, answer_bind, hprimary, Option.bind_none]

end Refusals

section Items

variable {c : Cursor} {tokens : List (List Char)}

/-- The next token neither repeats an item nor makes a name the beginning of a rule. -/
def Follows (tokens : List (List Char)) : Prop :=
  ∀ d ∈ tokens.head?.bind List.head?, d ≠ ':' ∧ d ≠ '*' ∧ d ≠ '+' ∧ d ≠ '?'

theorem reads_repetition {r : Repetition} (h : Stream (operator (some r) ++ tokens) c.rest) :
    Reads repetition c r tokens := by
  cases r with
  | zeroOrMore =>
    obtain ⟨d, hd, hstream⟩ := reads_word "*" h
    exact ⟨d, by simp only [repetition, answer_named, answer_orElse, answer_bind, hd,
      Option.bind_some, answer_pure, Option.some_or], hstream⟩
  | oneOrMore =>
    obtain ⟨d, hd, hstream⟩ := reads_word "+" h
    have hhead : c.rest.head? = some '+' := h.head?_eq
    have hstar := answer_word_eq_none "*" (by rw [hhead]; decide) (by decide)
    exact ⟨d, by simp only [repetition, answer_named, answer_orElse, answer_bind, hstar, hd,
      Option.bind_some, Option.bind_none, answer_pure, Option.some_or, Option.none_or], hstream⟩
  | optional =>
    obtain ⟨d, hd, hstream⟩ := reads_word "?" h
    have hhead : c.rest.head? = some '?' := h.head?_eq
    have hstar := answer_word_eq_none "*" (by rw [hhead]; decide) (by decide)
    have hplus := answer_word_eq_none "+" (by rw [hhead]; decide) (by decide)
    exact ⟨d, by simp only [repetition, answer_named, answer_orElse, answer_bind, hstar, hplus, hd,
      Option.bind_some, Option.bind_none, answer_pure, Option.none_or], hstream⟩

theorem answer_repetition_eq_none
    (h : ∀ d ∈ c.rest.head?, d ≠ '*' ∧ d ≠ '+' ∧ d ≠ '?') : repetition.answer c = none := by
  have hstar := answer_word_eq_none "*" (fun heq => (h '*' heq.symm).1 rfl) (by decide)
  have hplus := answer_word_eq_none "+" (fun heq => (h '+' heq.symm).2.1 rfl) (by decide)
  have hmark := answer_word_eq_none "?" (fun heq => (h '?' heq.symm).2.2 rfl) (by decide)
  simp only [repetition, answer_named, answer_orElse, answer_bind, hstar, hplus, hmark,
    Option.bind_none, Option.none_or]

theorem reads_itemWith {item : Parser Item} {complete : Option Repetition → Item}
    {rep : Option Repetition} (hprimary : Reads (primary item) c complete (operator rep ++ tokens))
    (hfollow : Follows tokens) : Reads (itemWith item) c (complete rep) tokens := by
  refine hprimary.bind_skip fun d hd => ?_
  cases rep with
  | none =>
    have hnone : repetition.answer d = none := by
      refine answer_repetition_eq_none ?_
      rw [hd.head?_eq]
      exact fun e he => (hfollow e he).2
    refine ⟨d, by simp [hnone], ?_⟩
    rw [hd.afterLayout_eq]
    exact hd
  | some r =>
    obtain ⟨e, he, hstream⟩ := reads_repetition hd
    exact ⟨e, by simp [he], hstream⟩

theorem reads_primary_reference {item : Parser Item} {id : String} {token : List Char}
    (hname : IsName id token) (h : Stream (token :: tokens) c.rest) :
    Reads (primary item) c (Item.reference id) tokens := by
  obtain ⟨d, ds, rfl, hstart⟩ := hname.exists_start
  have hne : ∀ e : Char, e ≠ '<' → isIdentifierStart e = false → d ≠ e := by
    rintro e hopen he rfl
    rcases hstart with rfl | hstart
    · exact hopen rfl
    · simp [he] at hstart
  have hcs : c.rest.head? = some d := h.head?_eq
  have hgroup : (group item).answer c = none := by
    refine answer_group_eq_none item ?_
    rw [hcs]
    simpa using hne '(' (by decide) (by decide)
  obtain ⟨e, he, hstream⟩ := reads_name hname h .reference
  refine ⟨e, ?_, hstream⟩
  -- The recognisers in front of names refuse the first character of the name.
  rw [answer_primary, hgroup, he]
  obtain ⟨ds', hds'⟩ : ∃ ds', c.rest = d :: ds' := by
    obtain ⟨ds', hds'⟩ := List.head?_eq_some_iff.1 hcs
    exact ⟨ds', hds'⟩
  have hquote := hne '"' (by decide) (by decide)
  have hquote' := hne '\'' (by decide) (by decide)
  have hbracket := hne '[' (by decide) (by decide)
  have hslash := hne '/' (by decide) (by decide)
  simp [hds', literal?, charClass?, pattern?, hquote, hquote', hbracket, hslash]

theorem IsEnclosed.exists_cons {opening close : Char} {w : List Char}
    (h : IsEnclosed opening close w) (hpre : w <+: c.rest) : ∃ ds, c.rest = opening :: ds := by
  obtain ⟨body, _, rfl⟩ := h
  obtain ⟨rest, hrest⟩ := hpre
  exact ⟨body ++ [close] ++ rest, hrest.symm⟩

theorem answer_primary_terminal {item : Parser Item} {w : List Char} (hw : IsTerminal w)
    (hpre : w <+: c.rest) :
    (primary item).answer c = some (Item.terminal (String.ofList w), c.past w) := by
  have hgroup : ∀ {d : Char}, d ≠ '(' → (∃ ds, c.rest = d :: ds) →
      (group item).answer c = none := by
    rintro d hd ⟨ds, hds⟩
    exact answer_group_eq_none item (by simpa [hds] using hd)
  rcases hw with hliteral | hclass | hpattern
  · have hopening : ∃ d ds, d ≠ '(' ∧ c.rest = d :: ds := by
      rcases hliteral with hw | hw
      · obtain ⟨ds, hds⟩ := hw.exists_cons hpre
        exact ⟨_, ds, by decide, hds⟩
      · obtain ⟨ds, hds⟩ := hw.exists_cons hpre
        exact ⟨_, ds, by decide, hds⟩
    obtain ⟨d, ds, hd, hds⟩ := hopening
    rw [answer_primary, hgroup hd ⟨ds, hds⟩, literal?_eq_some_iff.2 ⟨hliteral, hpre⟩]
    rfl
  · obtain ⟨ds, hds⟩ := IsEnclosed.exists_cons hclass hpre
    have hliteral : literal? c.rest = none := by simp [hds, literal?]
    rw [answer_primary, hgroup (by decide) ⟨ds, hds⟩, hliteral,
      charClass?_eq_some_iff.2 ⟨hclass, hpre⟩]
    rfl
  · obtain ⟨ds, hds⟩ := hpattern.1.exists_cons hpre
    have hliteral : literal? c.rest = none := by simp [hds, literal?]
    have hclass : charClass? c.rest = none := by simp [hds, charClass?]
    rw [answer_primary, hgroup (by decide) ⟨ds, hds⟩, hliteral, hclass,
      pattern?_eq_some_iff.2 ⟨hpattern, hpre⟩]
    rfl

theorem reads_primary_terminal {item : Parser Item} {lexeme : String}
    (hlexeme : IsTerminal lexeme.toList) (h : Stream (lexeme.toList :: tokens) c.rest) :
    Reads (primary item) c (Item.terminal lexeme) tokens := by
  generalize hcs : c.rest = cs at h
  cases h with
  | @cons _ rest _ _ _ htail =>
    refine ⟨c.past lexeme.toList, ?_, by rwa [Cursor.rest_past hcs]⟩
    rw [answer_primary_terminal hlexeme (hcs ▸ List.prefix_append _ _), String.ofList_toList]

theorem reads_group {item : Parser Item} {alternatives : List (List Item)}
    {inner : List (List Char)} (h : Stream (['('] :: inner) c.rest)
    (hbody : ∀ d : Cursor, Stream inner d.rest →
      Reads (alternation item) d alternatives ([')'] :: tokens)) :
    Reads (primary item) c (Item.group alternatives) tokens := by
  have hgroup : Reads (group item) c alternatives tokens := by
    refine (reads_word "(" h).bind_skip fun d hd => ?_
    refine (hbody d hd).bind_skip fun e he => ?_
    obtain ⟨f, hf, hstream⟩ := reads_word ")" he
    exact ⟨f, by simp [hf], hstream⟩
  obtain ⟨d, hd, hstream⟩ := hgroup
  refine ⟨d, ?_, hstream⟩
  rw [answer_primary, hd]
  rfl

end Items

end GrammarCompletion.Ebnf
