import GrammarCompletion.Proofs.Ebnf.Acceptance
import GrammarCompletion.Proofs.Ebnf.Completable
import GrammarCompletion.Proofs.Ebnf.Tries

/-! Wherever the reader tries a construct, the text in front can be completed. The reader is followed
with the tokens it has taken: each parser starts where a phrase of its sort is awaited, and so does
every parser it calls, be it in a group that is never closed or in the lookahead for the next rule. -/

open GrammarCompletion.Ebnf.Parser

namespace GrammarCompletion.Ebnf

section Contexts

def IsSequence (tokens : List (List Char)) : Prop := ∃ items, Spells (.sequence items) tokens

def IsChoice (tokens : List (List Char)) : Prop :=
  ∃ alternatives, Spells (.choice alternatives) tokens

def IsDocument (tokens : List (List Char)) : Prop := ∃ document, SpellsAll document tokens

/-- Behind these tokens, a phrase of the given sort and some closing tokens complete a document. -/
def Awaits (phrase : List (List Char) → Prop) (done : List (List Char)) : Prop :=
  ∃ closers, (∀ token ∈ closers, IsCloser token) ∧
    ∀ tokens, phrase tokens → IsDocument (done ++ (tokens ++ closers))

variable {done first : List (List Char)}

theorem SpellsAll.append {document other : Document} {second : List (List Char)}
    (h : SpellsAll document first) (h' : SpellsAll other second) :
    SpellsAll (document ++ other) (first ++ second) := by
  induction h with
  | nil => exact h'
  | cons hrule _ ih =>
    rw [List.append_assoc]
    exact .cons hrule ih

theorem IsDocument.rule (h : IsDocument done) {definition : Definition}
    (hrule : SpellsRule definition first) : IsDocument (done ++ first) := by
  obtain ⟨document, hdocument⟩ := h
  have hone : SpellsAll [definition] (first ++ []) := .cons hrule .nil
  rw [List.append_nil] at hone
  exact ⟨_, hdocument.append hone⟩

theorem IsDocument.completes (h : IsDocument done) : Completes done := by
  obtain ⟨document, hdocument⟩ := h
  exact ⟨[], document, by simp, by rwa [List.append_nil]⟩

theorem isName_x : IsName "x" ['<', 'x', '>'] := .bracketed (by decide)

theorem IsDocument.completes_name (h : IsDocument done) : Completes (done ++ [['<', 'x', '>']]) := by
  have hrule : SpellsRule ⟨"x", [[]]⟩ [['<', 'x', '>'], [':', ':', '=']] :=
    .unended isName_x .long (.single .nil)
  obtain ⟨document, hdocument⟩ := h.rule hrule
  refine ⟨[[':', ':', '=']], document, ?_, ?_⟩
  · intro token htoken
    exact .inr (.inr (List.mem_singleton.1 htoken))
  · rw [List.append_assoc]
    exact hdocument

theorem IsDocument.awaits_choice (h : IsDocument done) {id : String} {name sign : List Char}
    (hname : IsName id name) (hsign : IsAssign sign) : Awaits IsChoice (done ++ [name, sign]) := by
  refine ⟨[], by simp, ?_⟩
  rintro tokens ⟨alternatives, hbody⟩
  have hrule : SpellsRule ⟨id, alternatives⟩ (name :: sign :: tokens) :=
    .unended hname hsign hbody
  have hdocument := h.rule hrule
  simpa using hdocument

theorem Awaits.sequence (h : Awaits IsChoice done) : Awaits IsSequence done := by
  obtain ⟨closers, hclosers, hphrase⟩ := h
  refine ⟨closers, hclosers, ?_⟩
  rintro tokens ⟨items, hitems⟩
  exact hphrase tokens ⟨_, .single hitems⟩

theorem Awaits.bar (h : Awaits IsChoice done) {items : List Item}
    (hitems : Spells (.sequence items) first) : Awaits IsChoice (done ++ (first ++ [['|']])) := by
  obtain ⟨closers, hclosers, hphrase⟩ := h
  refine ⟨closers, hclosers, ?_⟩
  rintro tokens ⟨alternatives, halternatives⟩
  have hdocument := hphrase _ ⟨_, .more hitems halternatives⟩
  simpa using hdocument

theorem Awaits.item (h : Awaits IsSequence done) {item : Item}
    (hitem : Spells (.item item) first) : Awaits IsSequence (done ++ first) := by
  obtain ⟨closers, hclosers, hphrase⟩ := h
  refine ⟨closers, hclosers, ?_⟩
  rintro tokens ⟨items, hitems⟩
  have hdocument := hphrase _ ⟨_, .cons hitem hitems⟩
  simpa using hdocument

theorem Awaits.group (h : Awaits IsSequence done) : Awaits IsChoice (done ++ [['(']]) := by
  obtain ⟨closers, hclosers, hphrase⟩ := h
  refine ⟨[')'] :: closers, List.forall_mem_cons.2 ⟨.inl rfl, hclosers⟩, ?_⟩
  rintro tokens ⟨alternatives, halternatives⟩
  have hgroup : Spells (.item (.group alternatives none)) _ := .group halternatives
  have hdocument := hphrase _ ⟨_, .cons hgroup .nil⟩
  simpa [operator] using hdocument

theorem Awaits.completes (h : Awaits IsSequence done) : Completes done := by
  obtain ⟨closers, hclosers, hphrase⟩ := h
  obtain ⟨document, hdocument⟩ := hphrase [] ⟨[], .nil⟩
  exact ⟨closers, document, hclosers, hdocument⟩

theorem Awaits.completes_name (h : Awaits IsSequence done) :
    Completes (done ++ [['<', 'x', '>']]) := by
  have hreference : Spells (.item (.reference "x" none)) [['<', 'x', '>']] := .reference isName_x
  exact (h.item hreference).completes

end Contexts

section Places

variable {text : List Char} {done : List (List Char)} {c : Cursor}

structure Faces (text : List Char) (done : List (List Char)) (c : Cursor) : Prop where
  passes : Passes done ⟨0, text⟩ c
  layout_eq_nil : layout c.rest = []

/-- The construct may be tried at the offset: the text in front of it can be completed, and is
complete where the construct is the end of the text or all of it. -/
def Permits (text : List Char) (construct : Construct) (offset : Nat) : Prop :=
  ∃ before behind, text = before ++ behind ∧ Text.byteCount before = offset ∧
    Completable before ∧ (construct = .endOfInput ∨ construct = .grammar → Accepted before)

theorem Passes.faces (h : Passes done ⟨0, text⟩ c) :
    Faces text done (c.past (Ebnf.layout c.rest)) := by
  have hpasses := h.append (.layout c)
  rw [List.append_nil] at hpasses
  exact ⟨hpasses, layout_afterLayout c.rest⟩

theorem Faces.exists_cut (h : Faces text done c) :
    ∃ before, text = before ++ c.rest ∧ Text.byteCount before = c.offset ∧
      Meets c.rest done (afterLayout (before ++ c.rest)) := by
  obtain ⟨before, htext, hoffset⟩ := h.passes.exists_past
  have hmeets := h.passes.meets
  have htext : text = before ++ c.rest := htext
  rw [afterLayout_of_layout_eq_nil h.layout_eq_nil, htext] at hmeets
  rw [Nat.zero_add] at hoffset
  exact ⟨before, htext, hoffset.symm, hmeets⟩

theorem Faces.permits (h : Faces text done c) (construct : Construct) (hdone : Completes done)
    (hinner : ¬ (construct = .endOfInput ∨ construct = .grammar)) :
    Permits text construct c.offset := by
  obtain ⟨before, htext, hoffset, hmeets⟩ := h.exists_cut
  exact ⟨before, c.rest, htext, hoffset, completable_of_completes hmeets hdone,
    fun hwhole => absurd hwhole hinner⟩

theorem Faces.permits_end (h : Faces text done c) (construct : Construct)
    (hdone : IsDocument done) : Permits text construct c.offset := by
  obtain ⟨before, htext, hoffset, hmeets⟩ := h.exists_cut
  obtain ⟨document, hdocument⟩ := hdone
  have haccepted := accepted_of_spellsAll hmeets hdocument
  refine ⟨before, c.rest, htext, hoffset, ⟨[], ?_⟩, fun _ => haccepted⟩
  rwa [List.append_nil]

theorem Faces.permits_inside (h : Faces text done c) {behind : List Char}
    (hrest : c.rest = '<' :: behind) (hdone : Completes (done ++ [['<', 'x', '>']])) :
    Permits text .identifier (c.past ['<']).offset := by
  obtain ⟨before, htext, hoffset, hmeets⟩ := h.exists_cut
  rw [hrest] at hmeets
  refine ⟨before ++ ['<'], behind, ?_, ?_, completable_of_completes_name hmeets hdone, by simp⟩
  · rw [htext, hrest, List.append_assoc]
    rfl
  · rw [Text.byteCount_append, hoffset]
    rfl

end Places

/-- From here the parser tries constructs only where they are permitted. -/
def Permitted {α : Type} (text : List Char) (p : Parser α) (c : Cursor) : Prop :=
  ∀ tried ∈ p.tries c, Permits text tried.1 tried.2

namespace Permitted

variable {α β : Type} {text : List Char} {done : List (List Char)} {c : Cursor}
  {p q : Parser α} {spells : α → List (List Char) → Prop}

theorem of_tries_eq_nil (h : p.tries c = []) : Permitted text p c := by
  intro tried htried
  rw [h] at htried
  exact absurd htried List.not_mem_nil

theorem pure (a : α) (c : Cursor) : Permitted text (pure a) c := of_tries_eq_nil (tries_pure a c)

theorem fail (c : Cursor) : Permitted text (fail : Parser α) c := of_tries_eq_nil (tries_fail c)

theorem named {construct : Construct} (h : Permitted text p c)
    (hpermits : Permits text construct c.offset) : Permitted text (named construct p) c := by
  unfold Permitted
  rw [tries_named, List.forall_mem_cons]
  exact ⟨hpermits, h⟩

theorem map {f : α → β} (h : Permitted text p c) : Permitted text (f <$> p) c := h

theorem orElse (hp : Permitted text p c) (hq : Permitted text q c) :
    Permitted text (p <|> q) c := by
  intro tried htried
  rcases List.mem_append.1 (tries_orElse_subset p q c htried) with htried | htried
  · exact hp tried htried
  · exact hq tried htried

theorem absent (hq : Permitted text q c) {r : Parser β} (hr : Permitted text r c) :
    Permitted text (do absent q; r) c := by
  unfold Permitted
  rw [tries_bind, tries_absent, answer_absent, List.forall_mem_append]
  refine ⟨hq, ?_⟩
  split
  · exact hr
  · simp

theorem optional (h : Permitted text p c) : Permitted text (optional p) c := by
  unfold Permitted
  rw [tries_optional]
  exact h

theorem after {next : α × Cursor → List (Construct × Nat)} (hpasses : Passes done ⟨0, text⟩ c)
    (h : Permitted text p c) (htakes : Takes p c spells)
    (hnext : ∀ a first d, spells a first → Passes (done ++ first) ⟨0, text⟩ d →
      ∀ tried ∈ next (a, d), Permits text tried.1 tried.2) :
    ∀ tried ∈ p.tries c ++ ((p.answer c).map next).getD [],
      Permits text tried.1 tried.2 := by
  rw [List.forall_mem_append]
  refine ⟨h, ?_⟩
  cases hp : p.answer c with
  | none => simp
  | some r =>
    obtain ⟨first, hfirst, hmore⟩ := htakes r.1 r.2 hp
    exact hnext r.1 first r.2 hfirst (hpasses.append hmore)

theorem bind {f : α → Parser β} (hpasses : Passes done ⟨0, text⟩ c) (h : Permitted text p c)
    (htakes : Takes p c spells)
    (hf : ∀ a first d, spells a first → Passes (done ++ first) ⟨0, text⟩ d →
      Permitted text (f a) d) : Permitted text (p >>= f) c := by
  unfold Permitted
  rw [tries_bind]
  exact after hpasses h htakes hf

theorem bind_of_forall {f : α → Parser β} (h : Permitted text p c)
    (hf : ∀ a d, Permitted text (f a) d) : Permitted text (p >>= f) c := by
  unfold Permitted
  rw [tries_bind, List.forall_mem_append]
  refine ⟨h, ?_⟩
  cases p.answer c with
  | none => simp
  | some r => exact hf r.1 r.2

theorem skip (hpasses : Passes done ⟨0, text⟩ c)
    (h : ∀ d, Faces text done d → Permitted text p d) : Permitted text (do skipLayout; p) c := by
  unfold Permitted
  rw [tries_bind, tries_skipLayout, answer_skipLayout, List.nil_append]
  exact h _ hpasses.faces

section Loops

variable {awaits : List (List Char) → Prop}

theorem repeatUpTo (htakes : ∀ c : Cursor, layout c.rest = [] → Takes p c spells)
    (hp : ∀ done c, Faces text done c → awaits done → Permitted text p c)
    (hstep : ∀ done a first, awaits done → spells a first → awaits (done ++ first))
    (bound : Nat) (hpasses : Passes done ⟨0, text⟩ c) (hawaits : awaits done) :
    Permitted text (repeatUpTo (do skipLayout; p) bound) c := by
  induction bound generalizing done c with
  | zero => exact pure [] c
  | succ bound ih =>
    have hround : Permitted text (do skipLayout; p) c :=
      skip hpasses fun d hd => hp done d hd hawaits
    unfold Permitted
    rw [tries_repeatUpTo_succ]
    refine after hpasses hround (.skip htakes) ?_
    intro a first d ha hd
    exact ih hd (hstep done a first hawaits ha)

theorem spaced (htakes : ∀ c : Cursor, layout c.rest = [] → Takes p c spells)
    (hp : ∀ done c, Faces text done c → awaits done → Permitted text p c)
    (hstep : ∀ done a first, awaits done → spells a first → awaits (done ++ first))
    (hfaces : Faces text done c) (hawaits : awaits done) : Permitted text (spaced p) c := by
  unfold Permitted
  rw [tries_spaced]
  refine after hfaces.passes (hp done c hfaces hawaits) (htakes c hfaces.layout_eq_nil) ?_
  intro a first d ha hd
  exact repeatUpTo htakes hp hstep _ hd (hstep done a first hawaits ha)

end Loops

theorem word (fixed : String) (c : Cursor) : Permitted text (word fixed) c :=
  of_tries_eq_nil (tries_word fixed c)

theorem lexeme (recognise : List Char → Option (List Char)) (c : Cursor) :
    Permitted text (lexeme recognise) c :=
  of_tries_eq_nil (tries_lexeme recognise c)

theorem skipLayout (c : Cursor) : Permitted text skipLayout c :=
  of_tries_eq_nil (tries_skipLayout c)

theorem atEnd (c : Cursor) : Permitted text atEnd c := of_tries_eq_nil (tries_atEnd c)

end Permitted

end GrammarCompletion.Ebnf
