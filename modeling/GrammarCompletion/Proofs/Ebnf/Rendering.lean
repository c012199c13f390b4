import GrammarCompletion.Proofs.Ebnf.Layout
import GrammarCompletion.Proofs.Ebnf.Lexeme
import GrammarCompletion.Proofs.Ebnf.Meaning

/-! How documents are written. A document has several spellings as a list of tokens, since names
may stand in angle brackets, two assignment signs serve and a semicolon may end a rule; and a list
of tokens is laid out as text with gaps between the tokens and layout around them. -/

namespace GrammarCompletion.Ebnf

inductive IsName (name : String) : List Char → Prop where
  | bare (h : isIdentifier name.toList = true) : IsName name name.toList
  | bracketed (h : isIdentifier name.toList = true) : IsName name ('<' :: (name.toList ++ ['>']))

inductive IsAssign : List Char → Prop where
  | long : IsAssign [':', ':', '=']
  | short : IsAssign [':', '=']

def operator : Option Repetition → List (List Char)
  | none => []
  | some .optional => [['?']]
  | some .zeroOrMore => [['*']]
  | some .oneOrMore => [['+']]

inductive Spells : Phrase → List (List Char) → Prop where
  | reference {name : String} {repetition : Option Repetition} {token : List Char}
      (h : IsName name token) :
      Spells (.item (.reference name repetition)) (token :: operator repetition)
  | terminal {lexeme : String} {repetition : Option Repetition} (h : IsTerminal lexeme.toList) :
      Spells (.item (.terminal lexeme repetition)) (lexeme.toList :: operator repetition)
  | group {alternatives : List (List Item)} {repetition : Option Repetition}
      {tokens : List (List Char)} (body : Spells (.choice alternatives) tokens) :
      Spells (.item (.group alternatives repetition))
        (['('] :: (tokens ++ [')'] :: operator repetition))
  | nil : Spells (.sequence []) []
  | cons {item : Item} {items : List Item} {first rest : List (List Char)}
      (head : Spells (.item item) first) (tail : Spells (.sequence items) rest) :
      Spells (.sequence (item :: items)) (first ++ rest)
  | single {items : List Item} {tokens : List (List Char)} (h : Spells (.sequence items) tokens) :
      Spells (.choice [items]) tokens
  | more {items : List Item} {alternatives : List (List Item)} {first rest : List (List Char)}
      (head : Spells (.sequence items) first) (tail : Spells (.choice alternatives) rest) :
      Spells (.choice (items :: alternatives)) (first ++ ['|'] :: rest)

inductive SpellsRule (definition : Definition) : List (List Char) → Prop where
  | unended {name sign : List Char} {body : List (List Char)} (hname : IsName definition.name name)
      (hsign : IsAssign sign) (hbody : Spells (.choice definition.body) body) :
      SpellsRule definition (name :: sign :: body)
  | ended {name sign : List Char} {body : List (List Char)} (hname : IsName definition.name name)
      (hsign : IsAssign sign) (hbody : Spells (.choice definition.body) body) :
      SpellsRule definition (name :: sign :: (body ++ [[';']]))

inductive SpellsAll : Document → List (List Char) → Prop where
  | nil : SpellsAll [] []
  | cons {definition : Definition} {document : Document} {first rest : List (List Char)}
      (head : SpellsRule definition first) (tail : SpellsAll document rest) :
      SpellsAll (definition :: document) (first ++ rest)

theorem Spells.ne_nil {item : Item} {tokens : List (List Char)} (h : Spells (.item item) tokens) :
    tokens ≠ [] := by
  cases h <;> exact List.cons_ne_nil _ _

theorem SpellsRule.ne_nil {definition : Definition} {tokens : List (List Char)}
    (h : SpellsRule definition tokens) : tokens ≠ [] := by
  cases h <;> exact List.cons_ne_nil _ _

inductive LaidOut (gap : List Char → Prop) : List (List Char) → List Char → Prop where
  | nil : LaidOut gap [] []
  | last {token after : List Char} (h : IsLayout after) : LaidOut gap [token] (token ++ after)
  | cons {token between next text : List Char} {tokens : List (List Char)} (h : gap between)
      (tail : LaidOut gap (next :: tokens) text) :
      LaidOut gap (token :: next :: tokens) (token ++ (between ++ text))

/-- The text writes the document, with gaps of the given sort between its tokens. The text may
end in a line comment that lacks its line feed. -/
def Document.Renders (gap : List Char → Prop) (document : Document) (text : List Char) : Prop :=
  ∃ tokens before body tail, SpellsAll document tokens ∧ IsLayout before ∧
    LaidOut gap tokens body ∧ IsOpenEnd tail ∧ text = before ++ (body ++ tail)

def IsSeparator (cs : List Char) : Prop := IsLayout cs ∧ cs ≠ []

mutual

def Item.terminals : Item → List String
  | .reference _ _ => []
  | .terminal lexeme _ => [lexeme]
  | .group alternatives _ => terminalsOfChoice alternatives

def terminalsOfSequence : List Item → List String
  | [] => []
  | item :: items => item.terminals ++ terminalsOfSequence items

def terminalsOfChoice : List (List Item) → List String
  | [] => []
  | items :: rest => terminalsOfSequence items ++ terminalsOfChoice rest

end

def Document.terminals (document : Document) : List String :=
  document.flatMap fun definition => terminalsOfChoice definition.body

def Phrase.terminals : Phrase → List String
  | .item entry => entry.terminals
  | .sequence items => terminalsOfSequence items
  | .choice alternatives => terminalsOfChoice alternatives

section Tokens

structure IsToken (token : List Char) : Prop where
  ne_nil : token ≠ []
  layout_append : ∀ rest, layout (token ++ rest) = []

theorem IsToken.of_head {c : Char} {token : List Char} (hslash : c ≠ '/')
    (hblank : isBlank c = false) : IsToken (c :: token) where
  ne_nil := List.cons_ne_nil _ _
  layout_append := by
    intro rest
    refine layout_of_none ?_
    rw [List.cons_append, layoutPiece?.eq_4 _ _ (fun _ h => absurd h hslash)
      (fun _ h => absurd h hslash), hblank]
    rfl

theorem isToken_of_isIdentifier {cs : List Char} (h : isIdentifier cs = true) : IsToken cs := by
  cases cs with
  | nil => simp [isIdentifier] at h
  | cons c cs =>
    simp only [isIdentifier, Bool.and_eq_true] at h
    have hblank : isBlank c = false := by
      rw [Bool.eq_false_iff]
      intro hc
      simp only [isBlank, Bool.or_eq_true, beq_iff_eq] at hc
      rcases hc with ((rfl | rfl) | rfl) | rfl <;> simp [isIdentifierStart] at h
    refine .of_head ?_ hblank
    rintro rfl
    simp [isIdentifierStart] at h

theorem IsName.isToken {name : String} {token : List Char} (h : IsName name token) :
    IsToken token := by
  cases h with
  | bare h => exact isToken_of_isIdentifier h
  | bracketed => exact .of_head (by decide) (by decide)

theorem IsPattern.isToken {cs : List Char} (h : IsPattern cs) (hstar : ¬ ['/', '*'] <+: cs) :
    IsToken cs := by
  obtain ⟨⟨body, hbody, rfl⟩, hne⟩ := h
  cases body with
  | nil => simp at hne
  | cons c body =>
    have hslash : c ≠ '/' := by
      rintro rfl
      rw [isEnclosable.eq_def] at hbody
      simp at hbody
    have hstar : c ≠ '*' := by
      rintro rfl
      simp at hstar
    refine ⟨List.cons_ne_nil _ _, fun rest => layout_of_none ?_⟩
    rw [List.cons_append, List.cons_append, List.cons_append]
    rw [layoutPiece?.eq_4 _ _ (by simp [hslash]) (by simp [hstar])]
    rfl

theorem IsTerminal.isToken {cs : List Char} (h : IsTerminal cs) (hstar : ¬ ['/', '*'] <+: cs) :
    IsToken cs := by
  rcases h with (⟨_, _, rfl⟩ | ⟨_, _, rfl⟩) | ⟨_, _, rfl⟩ | h
  · exact .of_head (by decide) (by decide)
  · exact .of_head (by decide) (by decide)
  · exact .of_head (by decide) (by decide)
  · exact h.isToken hstar

theorem isToken_of_mem_operator {repetition : Option Repetition} {token : List Char}
    (h : token ∈ operator repetition) : IsToken token := by
  rcases repetition with _ | ⟨_ | _ | _⟩
  · simp [operator] at h
  all_goals
    obtain rfl := List.mem_singleton.1 h
    exact .of_head (by decide) (by decide)

theorem Spells.isToken {phrase : Phrase} {tokens : List (List Char)} (h : Spells phrase tokens)
    (hstar : ∀ lexeme ∈ phrase.terminals, ¬ ['/', '*'] <+: lexeme.toList) :
    ∀ token ∈ tokens, IsToken token := by
  induction h with
  | reference hname =>
    rw [List.forall_mem_cons]
    exact ⟨hname.isToken, fun _ => isToken_of_mem_operator⟩
  | terminal hlexeme =>
    rw [List.forall_mem_cons]
    exact ⟨hlexeme.isToken (hstar _ (by simp [Phrase.terminals, Item.terminals])),
      fun _ => isToken_of_mem_operator⟩
  | group _ ih =>
    have hbody := ih fun lexeme hlexeme => hstar lexeme (by
      simpa [Phrase.terminals, Item.terminals] using hlexeme)
    rw [List.forall_mem_cons, List.forall_mem_append, List.forall_mem_cons]
    exact ⟨.of_head (by decide) (by decide), hbody, .of_head (by decide) (by decide),
      fun _ => isToken_of_mem_operator⟩
  | nil => simp
  | cons _ _ ihhead ihtail =>
    simp only [Phrase.terminals, terminalsOfSequence, List.forall_mem_append] at hstar
    rw [List.forall_mem_append]
    exact ⟨ihhead hstar.1, ihtail hstar.2⟩
  | single _ ih =>
    simp only [Phrase.terminals, terminalsOfChoice, List.append_nil] at hstar
    exact ih hstar
  | more _ _ ihhead ihtail =>
    simp only [Phrase.terminals, terminalsOfChoice, List.forall_mem_append] at hstar
    rw [List.forall_mem_append, List.forall_mem_cons]
    exact ⟨ihhead hstar.1, .of_head (by decide) (by decide), ihtail hstar.2⟩

theorem IsAssign.isToken {sign : List Char} (h : IsAssign sign) : IsToken sign := by
  cases h <;> exact .of_head (by decide) (by decide)

theorem SpellsAll.isToken {document : Document} {tokens : List (List Char)}
    (h : SpellsAll document tokens)
    (hstar : ∀ lexeme ∈ document.terminals, ¬ ['/', '*'] <+: lexeme.toList) :
    ∀ token ∈ tokens, IsToken token := by
  induction h with
  | nil => simp
  | cons hrule _ ih =>
    simp only [Document.terminals, List.flatMap_cons, List.forall_mem_append] at hstar
    rw [List.forall_mem_append]
    refine ⟨?_, ih hstar.2⟩
    cases hrule with
    | unended hname hsign hbody =>
      simp only [List.forall_mem_cons]
      exact ⟨hname.isToken, hsign.isToken, hbody.isToken hstar.1⟩
    | ended hname hsign hbody =>
      simp only [List.forall_mem_cons, List.forall_mem_append]
      exact ⟨hname.isToken, hsign.isToken, hbody.isToken hstar.1,
        .of_head (by decide) (by decide), by simp⟩

end Tokens

end GrammarCompletion.Ebnf
