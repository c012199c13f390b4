import GrammarCompletion.Proofs.Ebnf.Viability

/-! Every construct is tried where it may stand. The parsers of the notation are followed one by one,
each from a place where its phrase is awaited; in the end the diagnosis of a text that is not read
names a place up to which the text can be completed. -/

open GrammarCompletion.Ebnf.Parser

namespace GrammarCompletion.Ebnf

variable {text : List Char} {done : List (List Char)} {c : Cursor}

section Tokens

theorem permitted_identifier (h : Permits text .identifier c.offset) :
    Permitted text identifier c :=
  .named (.map (.lexeme identifier? c)) h

theorem permitted_bracketed (h : Faces text done c)
    (hname : Completes (done ++ [['<', 'x', '>']])) :
    Permitted text (do word "<"; let id ← identifier; word ">"; return id) c := by
  unfold Permitted
  rw [tries_bind, tries_word, List.nil_append]
  cases hopen : (word "<").answer c with
  | none => simp
  | some r =>
    obtain ⟨⟨behind, hrest⟩, hpast⟩ := answer_word_eq_some hopen
    have hinside := h.permits_inside hrest.symm hname
    rw [Option.map_some, Option.getD_some, hpast]
    refine Permitted.bind_of_forall (permitted_identifier hinside) fun id d => ?_
    exact .bind_of_forall (.word ">" d) fun _ e => .pure id e

theorem permitted_name {role : Construct} (h : Faces text done c) (hdone : Completes done)
    (hname : Completes (done ++ [['<', 'x', '>']])) (hrole : Permits text role c.offset) :
    Permitted text (name role) c := by
  have hid := permitted_identifier (h.permits .identifier hdone (by simp))
  exact .named (.orElse (permitted_bracketed h hname) hid) hrole

theorem permitted_ruleStart (h : Faces text done c) (hdone : Completes done)
    (hname : Completes (done ++ [['<', 'x', '>']])) : Permitted text ruleStart c := by
  have hrole := h.permits .ruleName hdone (by simp)
  refine .bind_of_forall (permitted_name h hdone hname hrole) fun id d => ?_
  refine .bind_of_forall (.skipLayout d) fun _ e => ?_
  have hassign : Permitted text assign e := .orElse (.word "::=" e) (.word ":=" e)
  exact .bind_of_forall hassign fun _ f => .pure id f

theorem permitted_repetition (h : Faces text done c) (hdone : Completes done) :
    Permitted text repetition c := by
  have hmark : ∀ (word : String) (r : Repetition),
      Permitted text (do Parser.word word; return r) c :=
    fun word r => .bind_of_forall (.word word c) fun _ d => .pure r d
  exact .named (.orElse (hmark "*" _) (.orElse (hmark "+" _) (hmark "?" _)))
    (h.permits .repetition hdone (by simp))

end Tokens

section Phrases

variable {item : Parser Item}

def PermittedItem (text : List Char) (item : Parser Item) : Prop :=
  ∀ done c, Faces text done c → Awaits IsSequence done → Permitted text item c

theorem PermittedItem.sequence (h : PermittedItem text item) (htakes : TakesItem item)
    (hfaces : Faces text done c) (hawaits : Awaits IsSequence done) :
    Permitted text (sequence item) c := by
  have hround : ∀ done c, Faces text done c → Awaits IsSequence done →
      Permitted text (do absent ruleStart; item) c := by
    intro done c hfaces hawaits
    have hstart := permitted_ruleStart hfaces hawaits.completes hawaits.completes_name
    exact hstart.absent (h done c hfaces hawaits)
  have hstep : ∀ done entry first, Awaits IsSequence done → Spells (.item entry) first →
      Awaits IsSequence (done ++ first) := fun _ _ _ hawaits => hawaits.item
  exact .named (.spaced (fun c hc => (htakes c hc).absent) hround hstep hfaces hawaits)
    (hfaces.permits .sequence hawaits.completes (by simp))

theorem PermittedItem.nextAlternative (h : PermittedItem text item) (htakes : TakesItem item)
    (hfaces : Faces text done c) (hawaits : Awaits IsChoice (done ++ [['|']])) :
    Permitted text (do word "|"; skipLayout; Ebnf.sequence item) c := by
  have hbar := takes_word "|" (by decide) (by decide) hfaces.layout_eq_nil
  refine .bind hfaces.passes (.word "|" c) hbar ?_
  rintro _ _ d rfl hd
  exact .skip hd fun e he => h.sequence htakes he hawaits.sequence

theorem PermittedItem.alternation (h : PermittedItem text item) (htakes : TakesItem item)
    (hfaces : Faces text done c) (hawaits : Awaits IsChoice done) :
    Permitted text (alternation item) c := by
  have hfirst := h.sequence htakes hfaces hawaits.sequence
  refine .named ?_ (hfaces.permits .alternation hawaits.sequence.completes (by simp))
  refine .bind hfaces.passes hfirst (htakes.sequence hfaces.layout_eq_nil) ?_
  intro items first d hitems hd
  -- Behind each sequence a bar may stand, and behind the bar the next one.
  have hbar : Awaits IsChoice (done ++ first ++ [['|']]) := by
    rw [List.append_assoc]
    exact hawaits.bar hitems
  have hstep : ∀ done next tokens, Awaits IsChoice (done ++ [['|']]) →
      (∃ inner, Spells (.sequence next) inner ∧ tokens = ['|'] :: inner) →
      Awaits IsChoice (done ++ tokens ++ [['|']]) := by
    rintro done next _ hawaits ⟨inner, hinner, rfl⟩
    simpa using hawaits.bar hinner
  refine .skip hd fun e he => .bind_of_forall ?_ fun others f => .pure _ f
  exact .spaced (fun _ => htakes.nextAlternative) (fun _ _ => h.nextAlternative htakes) hstep he hbar

theorem PermittedItem.group (h : PermittedItem text item) (htakes : TakesItem item)
    (hfaces : Faces text done c) (hawaits : Awaits IsSequence done) :
    Permitted text (group item) c := by
  have hopen := takes_word "(" (by decide) (by decide) hfaces.layout_eq_nil
  refine .named ?_ (hfaces.permits .group hawaits.completes (by simp))
  refine .bind hfaces.passes (.word "(" c) hopen ?_
  rintro _ _ d rfl hd
  refine .skip hd fun e he => .bind_of_forall (h.alternation htakes he hawaits.group) ?_
  intro alternatives f
  refine .bind_of_forall (.skipLayout f) fun _ g => ?_
  exact .bind_of_forall (.word ")" g) fun _ k => .pure _ k

theorem PermittedItem.primary (h : PermittedItem text item) (htakes : TakesItem item)
    (hfaces : Faces text done c) (hawaits : Awaits IsSequence done) :
    Permitted text (primary item) c := by
  have hterminal : ∀ (construct : Construct) (recognise : List Char → Option (List Char)),
      ¬ (construct = .endOfInput ∨ construct = .grammar) →
      Permitted text (Item.terminal <$> terminal construct recognise) c := by
    intro construct recognise hinner
    have hpermits := hfaces.permits construct hawaits.completes hinner
    exact .map (.named (.map (.lexeme recognise c)) hpermits)
  have hrole := hfaces.permits .reference hawaits.completes (by simp)
  have hname := permitted_name hfaces hawaits.completes hawaits.completes_name hrole
  refine .orElse (h.group htakes hfaces hawaits).map (.orElse ?_ (.orElse ?_ (.orElse ?_ hname.map)))
  · exact hterminal .literal _ (by simp)
  · exact hterminal .charClass _ (by simp)
  · exact hterminal .pattern _ (by simp)

theorem PermittedItem.itemWith (h : PermittedItem text item) (htakes : TakesItem item) :
    PermittedItem text (itemWith item) := by
  intro done c hfaces hawaits
  have hprimary := h.primary htakes hfaces hawaits
  refine .named ?_ (hfaces.permits .item hawaits.completes (by simp))
  refine .bind hfaces.passes hprimary (htakes.primary hfaces.layout_eq_nil) ?_
  intro complete first d hcomplete hd
  -- The item is complete without an operator, which is why one may be tried.
  have hbare := hawaits.item (hcomplete none)
  rw [operator, List.append_nil] at hbare
  refine .skip hd fun e he => .bind_of_forall (permitted_repetition he hbare.completes).optional ?_
  exact fun o f => .pure _ f

theorem permittedItem_itemUpTo (text : List Char) (depth : Nat) :
    PermittedItem text (itemUpTo depth) := by
  induction depth with
  | zero => exact fun _ c _ _ => .fail c
  | succ depth ih => exact ih.itemWith (takesItem_itemUpTo depth)

end Phrases

section Documents

variable {item : Parser Item}

theorem PermittedItem.rule (h : PermittedItem text item) (htakes : TakesItem item)
    (hfaces : Faces text done c) (hdone : IsDocument done) : Permitted text (rule item) c := by
  have hstart := permitted_ruleStart hfaces hdone.completes hdone.completes_name
  refine .named ?_ (hfaces.permits_end .rule hdone)
  refine .bind hfaces.passes hstart (takes_ruleStart hfaces.layout_eq_nil) ?_
  rintro id _ d ⟨name, sign, hname, hsign, rfl⟩ hd
  have hawaits := hdone.awaits_choice hname hsign
  refine .skip hd fun e he => .bind_of_forall (h.alternation htakes he hawaits) ?_
  intro body f
  refine .bind_of_forall (.skipLayout f) fun _ g => ?_
  exact .bind_of_forall (.optional (.word ";" g)) fun _ k => .pure _ k

theorem permits_start (construct : Construct) : Permits text construct 0 := by
  have hempty : Accepted [] := by
    refine ⟨[], parse_of_stream .nil ?_⟩
    rw [String.toList_ofList, afterLayout_nil]
    exact .nil
  exact ⟨[], text, rfl, rfl, ⟨[], hempty⟩, fun _ => hempty⟩

theorem PermittedItem.grammar (h : PermittedItem text item) (htakes : TakesItem item) :
    Permitted text (grammar item) ⟨0, text⟩ := by
  have hstep : ∀ done definition first, IsDocument done → SpellsRule definition first →
      IsDocument (done ++ first) := fun _ _ _ hdone => hdone.rule
  refine .named (.skip (.nil _) fun c hc => ?_) (permits_start .grammar)
  have hrules : Permitted text (spaced (Ebnf.rule item)) c :=
    .spaced (fun _ => htakes.rule) (fun _ _ => h.rule htakes) hstep hc ⟨[], .nil⟩
  refine .bind hc.passes hrules (htakes.rules hc.layout_eq_nil) ?_
  intro document tokens d hdocument hd
  refine .skip hd fun e he => .bind_of_forall ?_ fun _ f => .pure _ f
  exact .named (.atEnd e) (he.permits_end .endOfInput ⟨document, hdocument⟩)

theorem parse_eq_error_iff {text : String} {fault : Fault} :
    parse text = .error fault ↔ (readText text.toList).result.isNone = true ∧
      Fault.ofAttempts (readText text.toList).attempts = fault := by
  unfold parse
  obtain ⟨result, attempts⟩ := readText text.toList
  cases result with
  | none => simp
  | some r => simp

theorem permits_of_parse_eq_error {text : String} {fault : Fault} (h : parse text = .error fault) :
    (∃ construct, Permits text.toList construct fault.offset) ∧
      ∀ construct ∈ fault.expected, Permits text.toList construct fault.offset := by
  have hitem := permittedItem_itemUpTo text.toList (text.toList.length + 1)
  have htries := hitem.grammar (takesItem_itemUpTo _)
  rw [← (parse_eq_error_iff.1 h).2]
  exact Fault.within_ofAttempts ⟨.grammar, permits_start .grammar⟩ htries

/-- A text that is not read can be completed from the place of its fault on; what stands in front
is complete if the fault expects the end of the text or all of it. -/
theorem exists_completable_of_parse_eq_error {text : String} {fault : Fault}
    (h : parse text = .error fault) :
    ∃ before behind, text.toList = before ++ behind ∧ Text.byteCount before = fault.offset ∧
      Completable before ∧
      (.endOfInput ∈ fault.expected ∨ .grammar ∈ fault.expected → Accepted before) := by
  obtain ⟨⟨construct, hplace⟩, hexpected⟩ := permits_of_parse_eq_error h
  obtain ⟨before, behind, htext, hoffset, hcompletable, _⟩ := hplace
  have haccepted : ∀ whole ∈ fault.expected, whole = .endOfInput ∨ whole = .grammar →
      Accepted before := by
    intro whole hmem hwhole
    obtain ⟨front, back, hcut, hcount, _, hfront⟩ := hexpected whole hmem
    have heq : before = front :=
      Text.eq_of_append_eq_append (htext.symm.trans hcut) (hoffset.trans hcount.symm)
    rw [heq]
    exact hfront hwhole
  refine ⟨before, behind, htext, hoffset, hcompletable, ?_⟩
  rintro (hmem | hmem)
  · exact haccepted _ hmem (.inl rfl)
  · exact haccepted _ hmem (.inr rfl)

end Documents

end GrammarCompletion.Ebnf
