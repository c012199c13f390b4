import GrammarCompletion.Proofs.Ebnf.Stream

/-! Whatever is read as a document writes that document. A parser that answers has passed tokens
and layout of the text, and the tokens spell the answer. This is kept by every way of combining
parsers, so each parser of the notation only needs its tokens named. -/

open GrammarCompletion.Ebnf.Parser

namespace GrammarCompletion.Ebnf

section Places

variable {c d e : Cursor}

/-- From the first place to the second stand the tokens, among layout. -/
structure Passes (tokens : List (List Char)) (c d : Cursor) : Prop where
  exists_past : ∃ w, c.rest = w ++ d.rest ∧ d.offset = c.offset + Text.byteCount w
  meets : Meets (afterLayout d.rest) tokens (afterLayout c.rest)

theorem Passes.nil (c : Cursor) : Passes [] c c := ⟨⟨[], rfl, rfl⟩, .nil⟩

theorem Passes.append {first second : List (List Char)} (h : Passes first c d)
    (h' : Passes second d e) : Passes (first ++ second) c e := by
  obtain ⟨v, hv, hoffset⟩ := h.exists_past
  obtain ⟨w, hw, hoffset'⟩ := h'.exists_past
  refine ⟨⟨v ++ w, ?_, ?_⟩, h.meets.append h'.meets⟩
  · rw [hv, hw, List.append_assoc]
  · rw [hoffset', hoffset, Text.byteCount_append, Nat.add_assoc]

theorem Passes.layout (c : Cursor) : Passes [] c (c.past (layout c.rest)) := by
  have hrest : (c.past (Ebnf.layout c.rest)).rest = afterLayout c.rest := rfl
  refine ⟨⟨Ebnf.layout c.rest, ?_, rfl⟩, ?_⟩
  · rw [hrest, layout_append_afterLayout]
  · rw [hrest, afterLayout_afterLayout]
    exact .nil

theorem Passes.offset_le {tokens : List (List Char)} (h : Passes tokens c d) :
    c.offset ≤ d.offset := by
  obtain ⟨w, _, hoffset⟩ := h.exists_past
  omega

theorem Passes.length_le {tokens : List (List Char)} (h : Passes tokens c d) :
    d.rest.length ≤ c.rest.length := by
  obtain ⟨w, hrest, _⟩ := h.exists_past
  rw [hrest, List.length_append]
  omega

theorem Passes.lt {tokens : List (List Char)} (h : Passes tokens c d) (hne : tokens ≠ []) :
    d.rest.length < c.rest.length ∧ c.offset < d.offset := by
  obtain ⟨w, hrest, hoffset⟩ := h.exists_past
  cases w with
  | nil =>
    have hlength := h.meets.length_le
    have hpos := List.length_pos_iff.2 hne
    rw [hrest, List.nil_append] at hlength
    omega
  | cons x w =>
    have hsize := Char.utf8Size_pos x
    rw [Text.byteCount_cons] at hoffset
    rw [hrest, List.length_append, List.length_cons]
    omega

theorem Cursor.rest_eq_append_past {w : List Char} (h : w <+: c.rest) :
    c.rest = w ++ (c.past w).rest := by
  obtain ⟨rest, hrest⟩ := h
  rw [Cursor.rest_past hrest.symm, hrest]

theorem Cursor.past_past (c : Cursor) (v w : List Char) : (c.past v).past w = c.past (v ++ w) := by
  simp only [Cursor.past, Text.byteCount_append, List.length_append, List.drop_drop, Nat.add_assoc]

theorem Passes.token {w : List Char} (hc : Ebnf.layout c.rest = []) (hw : w <+: c.rest)
    (hne : w ≠ [])
    (hid : isIdentifier w = true → ∀ d ∈ (c.past w).rest.head?, isIdentifierRest d = false) :
    Passes [w] c (c.past w) := by
  have hrest := Cursor.rest_eq_append_past hw
  refine ⟨⟨w, hrest, rfl⟩, ?_⟩
  rw [afterLayout_of_layout_eq_nil hc]
  rw [hrest] at hc ⊢
  exact .cons ⟨hne, hc⟩ hid .nil

end Places

theorem LaidOut.eq_nil {gap : List Char → Prop} {text : List Char} (h : LaidOut gap [] text) :
    text = [] := by
  cases h
  rfl

/-- The tokens that one meets in a text, with the layout between them, are the text. -/
theorem exists_laidOut_of_stream {tokens : List (List Char)} {text : List Char}
    (h : Stream tokens (afterLayout text)) :
    ∃ before body tail, IsLayout before ∧ LaidOut IsLayout tokens body ∧ IsOpenEnd tail ∧
      text = before ++ (body ++ tail) := by
  generalize hafter : afterLayout text = cs at h
  induction h generalizing text with
  | nil =>
    obtain ⟨gap, last, hgap, hlast, _, hlayout⟩ := isGap_layout text
    refine ⟨gap, [], last, hgap, .nil, hlast, ?_⟩
    rw [List.nil_append, ← hlayout, ← List.append_nil (layout text), ← hafter,
      layout_append_afterLayout]
  | @cons token behind tokens htoken _ _ ih =>
    obtain ⟨gap, last, hgap, _, hends, hlayout⟩ := isGap_layout text
    -- Only at the end of a text may a line comment lack its line feed.
    have hlast : last = [] := by
      refine hends.resolve_right ?_
      rw [hafter]
      exact List.append_ne_nil_of_left_ne_nil htoken.1 behind
    have htext : text = gap ++ (token ++ behind) := by
      rw [hlast, List.append_nil] at hlayout
      rw [← hlayout, ← hafter, layout_append_afterLayout]
    obtain ⟨before, body, tail, hbefore, hbody, htail, hbehind⟩ := ih rfl
    cases tokens with
    | nil =>
      refine ⟨gap, token ++ before, tail, hgap, .last hbefore, htail, ?_⟩
      rw [htext, hbehind, hbody.eq_nil]
      simp
    | cons next tokens =>
      refine ⟨gap, token ++ (before ++ body), tail, hgap, .cons hbefore hbody, htail, ?_⟩
      rw [htext, hbehind]
      simp

/-- Where the parser answers from here, it has passed tokens that stand in the given relation to
its answer. -/
def Takes {α : Type} (p : Parser α) (c : Cursor) (spells : α → List (List Char) → Prop) : Prop :=
  ∀ a d, p.answer c = some (a, d) → ∃ tokens, spells a tokens ∧ Passes tokens c d

namespace Takes

variable {α β : Type} {p q : Parser α} {c : Cursor} {spells : α → List (List Char) → Prop}

theorem pure {a : α} (h : spells a []) : Takes (pure a) c spells := by
  intro b d hanswer
  obtain ⟨rfl, rfl⟩ : a = b ∧ c = d := by simpa using hanswer
  exact ⟨[], h, .nil _⟩

theorem mono {out : α → List (List Char) → Prop} (hp : Takes p c spells)
    (h : ∀ a tokens, spells a tokens → out a tokens) : Takes p c out := by
  intro a d hanswer
  obtain ⟨tokens, htokens, hpasses⟩ := hp a d hanswer
  exact ⟨tokens, h a tokens htokens, hpasses⟩

theorem fail : Takes (fail : Parser α) c spells := by
  intro a d hanswer
  simp at hanswer

theorem bind {f : α → Parser β} {out : β → List (List Char) → Prop} (hp : Takes p c spells)
    (hf : ∀ a first d, spells a first → Takes (f a) d fun b rest => out b (first ++ rest)) :
    Takes (p >>= f) c out := by
  intro b e hanswer
  rw [answer_bind, Option.bind_eq_some_iff] at hanswer
  obtain ⟨⟨a, d⟩, ha, hb⟩ := hanswer
  obtain ⟨first, hfirst, hpasses⟩ := hp a d ha
  obtain ⟨rest, hrest, hpasses'⟩ := hf a first d hfirst b e hb
  exact ⟨first ++ rest, hrest, hpasses.append hpasses'⟩

theorem map {f : α → β} {out : β → List (List Char) → Prop} (hp : Takes p c spells)
    (hf : ∀ a tokens, spells a tokens → out (f a) tokens) : Takes (f <$> p) c out := by
  intro b d hanswer
  rw [answer_map, Option.map_eq_some_iff] at hanswer
  obtain ⟨⟨a, e⟩, ha, heq⟩ := hanswer
  obtain ⟨rfl, rfl⟩ := Prod.mk.inj heq
  obtain ⟨tokens, htokens, hpasses⟩ := hp a e ha
  exact ⟨tokens, hf a tokens htokens, hpasses⟩

theorem orElse (hp : Takes p c spells) (hq : Takes q c spells) : Takes (p <|> q) c spells := by
  intro a d hanswer
  rw [answer_orElse, Option.or_eq_some_iff] at hanswer
  rcases hanswer with hanswer | ⟨_, hanswer⟩
  · exact hp a d hanswer
  · exact hq a d hanswer

theorem named {construct : Construct} (hp : Takes p c spells) :
    Takes (named construct p) c spells :=
  hp

theorem skip (hp : ∀ d : Cursor, layout d.rest = [] → Takes p d spells) :
    Takes (do skipLayout; p) c spells := by
  intro a d hanswer
  rw [answer_bind, answer_skipLayout, Option.bind_some] at hanswer
  obtain ⟨tokens, htokens, hpasses⟩ := hp _ (layout_afterLayout c.rest) a d hanswer
  exact ⟨tokens, htokens, (Passes.layout c).append hpasses⟩

theorem absent {r : Parser β} (hp : Takes p c spells) : Takes (do absent r; p) c spells := by
  intro a d hanswer
  rw [answer_bind, answer_absent] at hanswer
  split at hanswer
  · exact hp a d hanswer
  · simp at hanswer

theorem optional {out : Option α → List (List Char) → Prop} (hp : Takes p c spells)
    (hnone : out none []) (hsome : ∀ a tokens, spells a tokens → out (some a) tokens) :
    Takes (optional p) c out := by
  intro b d hanswer
  rw [answer_optional] at hanswer
  cases hp' : p.answer c with
  | none =>
    obtain ⟨rfl, rfl⟩ : none = b ∧ c = d := by simpa [hp'] using hanswer
    exact ⟨[], hnone, .nil _⟩
  | some r =>
    obtain ⟨a, e⟩ := r
    obtain ⟨rfl, rfl⟩ : some a = b ∧ e = d := by simpa [hp'] using hanswer
    obtain ⟨tokens, htokens, hpasses⟩ := hp a e hp'
    exact ⟨tokens, hsome a tokens htokens, hpasses⟩

variable {out : List α → List (List Char) → Prop}

theorem round {loop : Parser (List α)} {d : Cursor} {as : List α} (hp : Takes p c spells)
    (hloop : ∀ e, Takes loop e out) (hnil : out [] [])
    (hcons : ∀ a as first rest, spells a first → out as rest → out (a :: as) (first ++ rest))
    (hanswer : (match p.answer c with
      | none => some ([], c)
      | some (a, e) => (loop.answer e).map fun r => (a :: r.1, r.2)) = some (as, d)) :
    ∃ tokens, out as tokens ∧ Passes tokens c d := by
  cases hround : p.answer c with
  | none =>
    obtain ⟨rfl, rfl⟩ : [] = as ∧ c = d := by simpa [hround] using hanswer
    exact ⟨[], hnil, .nil _⟩
  | some r =>
    obtain ⟨a, e⟩ := r
    simp only [hround, Option.map_eq_some_iff] at hanswer
    obtain ⟨⟨as, f⟩, hf, heq⟩ := hanswer
    obtain ⟨rfl, rfl⟩ := Prod.mk.inj heq
    obtain ⟨first, hfirst, hpasses⟩ := hp a e hround
    obtain ⟨rest, hrest, hpasses'⟩ := hloop e as f hf
    exact ⟨first ++ rest, hcons a as first rest hfirst hrest, hpasses.append hpasses'⟩

theorem repeatUpTo (hp : ∀ c : Cursor, layout c.rest = [] → Takes p c spells) (hnil : out [] [])
    (hcons : ∀ a as first rest, spells a first → out as rest → out (a :: as) (first ++ rest))
    (bound : Nat) (c : Cursor) : Takes (repeatUpTo (do skipLayout; p) bound) c out := by
  induction bound generalizing c with
  | zero => exact .pure hnil
  | succ bound ih =>
    intro as d hanswer
    rw [answer_repeatUpTo_succ] at hanswer
    exact (skip hp).round ih hnil hcons hanswer

theorem spaced (hp : ∀ c : Cursor, layout c.rest = [] → Takes p c spells) (hnil : out [] [])
    (hcons : ∀ a as first rest, spells a first → out as rest → out (a :: as) (first ++ rest))
    (hc : layout c.rest = []) : Takes (spaced p) c out := by
  intro as d hanswer
  rw [answer_spaced] at hanswer
  exact (hp c hc).round (repeatUpTo hp hnil hcons _) hnil hcons hanswer

end Takes

section Tokens

variable {c d : Cursor}

theorem answer_word_eq_some {text : String} {a : Unit} (h : (word text).answer c = some (a, d)) :
    text.toList <+: c.rest ∧ d = c.past text.toList := by
  rw [answer_word, Option.ite_none_right_eq_some] at h
  obtain ⟨hpre, heq⟩ := h
  exact ⟨hpre, (Prod.mk.inj (Option.some.inj heq)).2.symm⟩

theorem answer_lexeme_eq_some {recognise : List Char → Option (List Char)} {id : String}
    (h : (String.ofList <$> lexeme recognise).answer c = some (id, d)) :
    recognise c.rest = some id.toList ∧ d = c.past id.toList := by
  simp only [answer_map, answer_lexeme, Option.map_map, Option.map_eq_some_iff] at h
  obtain ⟨w, hw, heq⟩ := h
  obtain ⟨rfl, rfl⟩ := Prod.mk.inj heq
  rw [String.toList_ofList]
  exact ⟨hw, rfl⟩

theorem takes_word (text : String) (hne : text.toList ≠ [])
    (hid : isIdentifier text.toList = false) (hc : layout c.rest = []) :
    Takes (word text) c fun _ tokens => tokens = [text.toList] := by
  intro a d hanswer
  obtain ⟨hpre, rfl⟩ := answer_word_eq_some hanswer
  refine ⟨_, rfl, .token hc hpre hne ?_⟩
  intro hidentifier
  rw [hid] at hidentifier
  exact absurd hidentifier Bool.false_ne_true

theorem takes_terminal {construct : Construct} {recognise : List Char → Option (List Char)}
    (hrecognise : ∀ cs w, recognise cs = some w → IsTerminal w ∧ w <+: cs)
    (hc : layout c.rest = []) :
    Takes (terminal construct recognise) c fun lexeme tokens =>
      IsTerminal lexeme.toList ∧ tokens = [lexeme.toList] := by
  intro lexeme d hanswer
  obtain ⟨hlexeme, rfl⟩ := answer_lexeme_eq_some hanswer
  obtain ⟨hterminal, hpre⟩ := hrecognise _ _ hlexeme
  obtain ⟨opening, body, hhead, hopening⟩ := hterminal.exists_head
  refine ⟨_, ⟨hterminal, rfl⟩, .token hc hpre ?_ ?_⟩
  · rw [hhead]
    exact List.cons_ne_nil _ _
  · -- No identifier begins like a terminal.
    intro hidentifier
    rw [hhead, isIdentifier, Bool.and_eq_true] at hidentifier
    rcases hopening with rfl | rfl | rfl | rfl
    all_goals exact absurd hidentifier.1 (by decide)

theorem takes_identifier (hc : layout c.rest = []) :
    Takes identifier c fun id tokens => isIdentifier id.toList = true ∧ tokens = [id.toList] := by
  intro id d hanswer
  obtain ⟨hid, rfl⟩ := answer_lexeme_eq_some hanswer
  obtain ⟨hidentifier, hpre⟩ := isIdentifier_of_identifier? hid
  have hne := (isToken_of_isIdentifier hidentifier).ne_nil
  refine ⟨_, ⟨hidentifier, rfl⟩, .token hc hpre hne ?_⟩
  intro _
  rw [Cursor.rest_eq_append_past hpre] at hid
  exact head?_of_identifier?_append hid

theorem takes_bracketed (hc : layout c.rest = []) :
    Takes (do word "<"; let id ← identifier; word ">"; return id) c fun id tokens =>
      ∃ token, IsName id token ∧ tokens = [token] := by
  intro id d hanswer
  simp only [answer_bind, Option.bind_eq_some_iff, Prod.exists] at hanswer
  obtain ⟨_, e, hopen, id', f, hid, _, g, hclose, hpure⟩ := hanswer
  obtain ⟨rfl, rfl⟩ : id' = id ∧ g = d := by simpa using hpure
  obtain ⟨hopened, rfl⟩ := answer_word_eq_some hopen
  obtain ⟨hfound, rfl⟩ := answer_lexeme_eq_some hid
  obtain ⟨hclosed, rfl⟩ := answer_word_eq_some hclose
  obtain ⟨hidentifier, hinner⟩ := isIdentifier_of_identifier? hfound
  have htoken : '<' :: (id'.toList ++ ['>']) <+: c.rest := by
    rw [Cursor.rest_eq_append_past hopened, Cursor.rest_eq_append_past hinner,
      Cursor.rest_eq_append_past hclosed]
    refine ⟨(((c.past "<".toList).past id'.toList).past ">".toList).rest, ?_⟩
    simp
  refine ⟨_, ⟨_, .bracketed hidentifier, rfl⟩, ?_⟩
  have hpasses := Passes.token hc htoken (List.cons_ne_nil _ _) ?_
  · rw [Cursor.past_past, Cursor.past_past]
    exact hpasses
  · intro hfalse
    simp [isIdentifier, isIdentifierStart] at hfalse

theorem takes_name (role : Construct) (hc : layout c.rest = []) :
    Takes (name role) c fun id tokens => ∃ token, IsName id token ∧ tokens = [token] := by
  refine Takes.named (.orElse (takes_bracketed hc) ((takes_identifier hc).mono ?_))
  rintro id tokens ⟨hid, rfl⟩
  exact ⟨_, .bare hid, rfl⟩

theorem takes_assign (hc : layout c.rest = []) :
    Takes assign c fun _ tokens => ∃ sign, IsAssign sign ∧ tokens = [sign] := by
  have hlong := takes_word "::=" (by decide) (by decide) hc
  have hshort := takes_word ":=" (by decide) (by decide) hc
  refine Takes.orElse (hlong.mono ?_) (hshort.mono ?_)
  · rintro _ tokens rfl
    exact ⟨_, .long, rfl⟩
  · rintro _ tokens rfl
    exact ⟨_, .short, rfl⟩

theorem takes_ruleStart (hc : layout c.rest = []) :
    Takes ruleStart c fun id tokens =>
      ∃ name sign, IsName id name ∧ IsAssign sign ∧ tokens = [name, sign] := by
  refine (takes_name .ruleName hc).bind ?_
  rintro id _ _ ⟨name, hname, rfl⟩
  refine Takes.skip fun d hd => (takes_assign hd).bind ?_
  rintro _ _ _ ⟨sign, hsign, rfl⟩
  exact .pure ⟨name, sign, hname, hsign, rfl⟩

theorem takes_repetition (hc : layout c.rest = []) :
    Takes repetition c fun r tokens => tokens = operator (some r) := by
  have hmark : ∀ (text : String) (r : Repetition), operator (some r) = [text.toList] →
      text.toList ≠ [] → isIdentifier text.toList = false →
      Takes (do word text; return r) c fun r tokens => tokens = operator (some r) := by
    intro text r hr hne hid
    refine (takes_word text hne hid hc).bind ?_
    rintro _ _ _ rfl
    exact .pure hr.symm
  refine Takes.named (.orElse ?_ (.orElse ?_ ?_))
  · exact hmark "*" .zeroOrMore rfl (by decide) (by decide)
  · exact hmark "+" .oneOrMore rfl (by decide) (by decide)
  · exact hmark "?" .optional rfl (by decide) (by decide)

end Tokens

section Phrases

variable {item : Parser Item} {c : Cursor}

def TakesItem (item : Parser Item) : Prop :=
  ∀ c : Cursor, layout c.rest = [] → Takes item c fun entry => Spells (.item entry)

theorem TakesItem.sequence (h : TakesItem item) (hc : layout c.rest = []) :
    Takes (sequence item) c fun items => Spells (.sequence items) := by
  have hround : ∀ d : Cursor, layout d.rest = [] →
      Takes (do absent ruleStart; item) d fun entry => Spells (.item entry) :=
    fun d hd => (h d hd).absent
  refine Takes.named (.spaced hround .nil ?_ hc)
  intro entry items first rest hentry hitems
  exact .cons hentry hitems

theorem TakesItem.nextAlternative (h : TakesItem item) (hc : layout c.rest = []) :
    Takes (do word "|"; skipLayout; Ebnf.sequence item) c fun items tokens =>
      ∃ inner, Spells (.sequence items) inner ∧ tokens = ['|'] :: inner := by
  refine (takes_word "|" (by decide) (by decide) hc).bind ?_
  rintro _ _ _ rfl
  refine Takes.skip fun d hd => (h.sequence hd).mono ?_
  intro items inner hitems
  exact ⟨inner, hitems, rfl⟩

theorem TakesItem.others (h : TakesItem item) (hc : layout c.rest = []) :
    Takes (spaced do word "|"; skipLayout; Ebnf.sequence item) c fun others tokens =>
      ∀ items first, Spells (.sequence items) first →
        Spells (.choice (items :: others)) (first ++ tokens) := by
  refine .spaced (fun _ => h.nextAlternative) ?_ ?_ hc
  · intro items first hfirst
    rw [List.append_nil]
    exact .single hfirst
  · rintro next others _ rest ⟨inner, hinner, rfl⟩ hrest items first hfirst
    exact .more hfirst (hrest next inner hinner)

theorem TakesItem.alternation (h : TakesItem item) (hc : layout c.rest = []) :
    Takes (alternation item) c fun alternatives => Spells (.choice alternatives) := by
  refine Takes.named ((h.sequence hc).bind ?_)
  intro items first _ hfirst
  refine Takes.skip fun d hd => (h.others hd).bind ?_
  intro others rest _ hrest
  refine .pure ?_
  rw [List.append_nil]
  exact hrest items first hfirst

theorem TakesItem.group (h : TakesItem item) (hc : layout c.rest = []) :
    Takes (group item) c fun alternatives tokens =>
      ∃ inner, Spells (.choice alternatives) inner ∧ tokens = ['('] :: (inner ++ [[')']]) := by
  refine Takes.named ((takes_word "(" (by decide) (by decide) hc).bind ?_)
  rintro _ _ _ rfl
  refine Takes.skip fun d hd => (h.alternation hd).bind ?_
  intro alternatives inner _ hinner
  refine Takes.skip fun e he => (takes_word ")" (by decide) (by decide) he).bind ?_
  rintro _ _ _ rfl
  exact .pure ⟨inner, hinner, by simp⟩

theorem TakesItem.primary (h : TakesItem item) (hc : layout c.rest = []) :
    Takes (primary item) c fun complete tokens =>
      ∀ repetition, Spells (.item (complete repetition)) (tokens ++ operator repetition) := by
  have hterminal : ∀ (construct : Construct) (recognise : List Char → Option (List Char)),
      (∀ cs w, recognise cs = some w → IsTerminal w ∧ w <+: cs) →
      Takes (Item.terminal <$> terminal construct recognise) c fun complete tokens =>
        ∀ repetition, Spells (.item (complete repetition)) (tokens ++ operator repetition) := by
    intro construct recognise hrecognise
    refine (takes_terminal hrecognise hc).map ?_
    rintro lexeme _ ⟨hlexeme, rfl⟩ repetition
    exact .terminal hlexeme
  refine .orElse ((h.group hc).map ?_) (.orElse ?_ (.orElse ?_ (.orElse ?_ ?_)))
  · rintro alternatives _ ⟨inner, hinner, rfl⟩ repetition
    have hgroup : Spells (.item (.group alternatives repetition)) _ := .group hinner
    simpa using hgroup
  · refine hterminal _ _ fun cs w hw => ?_
    obtain ⟨hw, hpre⟩ := literal?_eq_some_iff.1 hw
    exact ⟨.inl hw, hpre⟩
  · refine hterminal _ _ fun cs w hw => ?_
    obtain ⟨hw, hpre⟩ := charClass?_eq_some_iff.1 hw
    exact ⟨.inr (.inl hw), hpre⟩
  · refine hterminal _ _ fun cs w hw => ?_
    obtain ⟨hw, hpre⟩ := pattern?_eq_some_iff.1 hw
    exact ⟨.inr (.inr hw), hpre⟩
  · refine (takes_name .reference hc).map ?_
    rintro id _ ⟨token, hname, rfl⟩ repetition
    exact .reference hname

theorem TakesItem.itemWith (h : TakesItem item) : TakesItem (itemWith item) := by
  intro c hc
  refine Takes.named ((h.primary hc).bind ?_)
  intro complete first _ hcomplete
  refine Takes.skip fun d hd => ?_
  have hoperator : Takes (optional repetition) d fun o tokens => tokens = operator o :=
    (takes_repetition hd).optional rfl fun _ _ htokens => htokens
  refine hoperator.bind ?_
  rintro repetition _ _ rfl
  refine .pure ?_
  rw [List.append_nil]
  exact hcomplete repetition

theorem takesItem_itemUpTo (depth : Nat) : TakesItem (itemUpTo depth) := by
  induction depth with
  | zero => exact fun _ _ => .fail
  | succ depth ih => exact ih.itemWith

end Phrases

section Documents

variable {item : Parser Item} {c : Cursor}

theorem TakesItem.rule (h : TakesItem item) (hc : layout c.rest = []) :
    Takes (rule item) c SpellsRule := by
  refine Takes.named ((takes_ruleStart hc).bind ?_)
  rintro id _ _ ⟨name, sign, hname, hsign, rfl⟩
  refine Takes.skip fun d hd => (h.alternation hd).bind ?_
  intro body inner _ hbody
  refine Takes.skip fun e he => ?_
  have hend : Takes (optional (word ";")) e fun _ tokens => tokens = [] ∨ tokens = [[';']] :=
    (takes_word ";" (by decide) (by decide) he).optional (.inl rfl) fun _ _ => .inr
  refine hend.bind ?_
  rintro _ _ _ (rfl | rfl)
  · have hrule : SpellsRule ⟨id, body⟩ (name :: sign :: inner) := .unended hname hsign hbody
    exact .pure (by simpa using hrule)
  · have hrule : SpellsRule ⟨id, body⟩ (name :: sign :: (inner ++ [[';']])) :=
      .ended hname hsign hbody
    exact .pure (by simpa using hrule)

theorem TakesItem.rules (h : TakesItem item) (hc : layout c.rest = []) :
    Takes (spaced (Ebnf.rule item)) c SpellsAll :=
  .spaced (fun _ => h.rule) .nil (fun _ _ _ _ => .cons) hc

theorem TakesItem.grammar (h : TakesItem item) : Takes (grammar item) c SpellsAll := by
  refine Takes.named (.skip fun d hd => (h.rules hd).bind ?_)
  intro document tokens _ hdocument
  refine Takes.skip fun e _ => ?_
  have hend : Takes (Parser.named .endOfInput atEnd) e fun _ tokens => tokens = [] := by
    intro _ f hanswer
    rw [answer_named, answer_atEnd, Option.ite_none_right_eq_some] at hanswer
    obtain rfl : e = f := (Prod.mk.inj (Option.some.inj hanswer.2)).2
    exact ⟨[], rfl, .nil _⟩
  refine hend.bind ?_
  rintro _ _ _ rfl
  exact .pure (by simpa using hdocument)

theorem rest_of_answer_grammar {c d : Cursor} {document : Document}
    (h : (grammar item).answer c = some (document, d)) : d.rest = [] := by
  simp only [Ebnf.grammar, answer_named, answer_bind, answer_atEnd, Option.bind_eq_some_iff,
    Prod.exists, Option.ite_none_right_eq_some] at h
  obtain ⟨_, _, _, _, _, _, _, _, _, _, e, ⟨hend, he⟩, hpure⟩ := h
  simp only [answer_pure, Option.some.injEq, Prod.mk.injEq] at he hpure
  rw [← hpure.2, ← he.2, hend]

/-- A text that is read as a document writes it. -/
theorem renders_of_parse {text : String} {document : Document}
    (h : parse text = .ok document) : document.Renders IsLayout text.toList := by
  obtain ⟨d, hd⟩ : ∃ d, (grammar (itemUpTo (text.toList.length + 1))).answer ⟨0, text.toList⟩ =
      some (document, d) := by
    unfold parse at h
    split at h
    · rename_i found d attempts hread
      obtain rfl := Except.ok.inj h
      exact ⟨d, congrArg Outcome.result hread⟩
    · simp at h
  obtain ⟨tokens, hspells, hpasses⟩ := (takesItem_itemUpTo _).grammar _ _ hd
  have hstream := hpasses.meets
  rw [rest_of_answer_grammar hd, afterLayout_nil] at hstream
  obtain ⟨before, body, tail, hbefore, hbody, htail, htext⟩ := exists_laidOut_of_stream hstream
  exact ⟨tokens, before, body, tail, hspells, hbefore, hbody, htail, htext⟩

end Documents

end GrammarCompletion.Ebnf
