import GrammarCompletion.Proofs.Grammar.MadeRules
import GrammarCompletion.Proofs.Terminal.CharClass
import GrammarCompletion.Proofs.Terminal.Spelling

/-! Character classes as symbols of tables and of grammar text. The members of a class are listed
whatever stands between the outer brackets, while grammar text ends a class at the first closing bracket
that no backslash hides. So a class with members can be written in grammar text, and is read there as
the same symbol, exactly if no closing bracket inside it is bare. -/

namespace GrammarCompletion

namespace Ebnf

theorem IsTerminal.isCharClass {cs : List Char} (h : IsTerminal cs)
    (hhead : cs.head? = some '[') : IsCharClass cs := by
  rcases h with (⟨body, _, rfl⟩ | ⟨body, _, rfl⟩) | h | ⟨⟨body, _, rfl⟩, _⟩
  · simp at hhead
  · simp at hhead
  · exact h
  · simp at hhead

def oneTerminal (name lexeme : String) : Document := [⟨name, [[.terminal lexeme none]]⟩]

theorem spells_oneTerminal {name lexeme : String} (hname : isIdentifier name.toList = true)
    (hlexeme : IsTerminal lexeme.toList) :
    SpellsAll (oneTerminal name lexeme) [name.toList, [':', ':', '='], lexeme.toList] := by
  have hbody : Spells (.choice [[.terminal lexeme none]]) [lexeme.toList] :=
    .single (.cons (.terminal hlexeme) .nil)
  have hrule : SpellsRule ⟨name, [[.terminal lexeme none]]⟩
      [name.toList, [':', ':', '='], lexeme.toList] := .unended (.bare hname) .long hbody
  exact .cons hrule .nil

theorem renders_oneTerminal {name lexeme : String} (hname : isIdentifier name.toList = true)
    (hlexeme : IsTerminal lexeme.toList) :
    (oneTerminal name lexeme).Renders IsSeparator (name ++ " ::= " ++ lexeme).toList := by
  have hblank : IsSeparator [' '] := ⟨.cons (.blank (by decide)) .nil, by decide⟩
  refine ⟨_, [], _, [], spells_oneTerminal hname hlexeme, .nil,
    .cons hblank (.cons hblank (.last .nil)), .inl rfl, ?_⟩
  simp [String.toList_append]

end Ebnf

namespace Terminal

open Ebnf

theorem exists_front_of_bare {close : Char} (hclose : Escape.isInner close = false)
    {body : List Atom} {pieces : List (List Char)}
    (h : List.Forall₂ (Atom.WrittenAs none) body pieces) (hbare : ⟨close, false⟩ ∈ body) :
    ∃ front back, pieces.flatten = front ++ close :: back ∧ isEnclosable close front = true := by
  induction h with
  | nil => simp at hbare
  | @cons atom _ _ pieces hpiece _ ih =>
    by_cases hatom : ⟨close, false⟩ = atom
    · subst hatom
      cases hpiece with
      | plain => exact ⟨[], pieces.flatten, rfl, rfl⟩
    · obtain ⟨front, back, hsplit, hfront⟩ := ih ((List.mem_cons.1 hbare).resolve_left hatom)
      rw [List.flatten_cons, hsplit, ← List.append_assoc]
      refine ⟨_, back, rfl, ?_⟩
      cases hpiece with
      | @plain c slash _ =>
        have hne : c ≠ close := by
          rintro rfl
          exact hatom rfl
        rwa [List.singleton_append, isEnclosable_cons hne slash]
      | escape hdenotes =>
        rwa [List.cons_append,
          isEnclosable_escape hclose (Escape.read_eq_ok_iff.2 ⟨_, rfl, hdenotes⟩)]

def HasBareClose (cs : List Char) : Prop :=
  ∃ pieces body, cs = '[' :: (pieces.flatten ++ [']']) ∧
    List.Forall₂ (Atom.WrittenAs none) body pieces ∧ ⟨']', false⟩ ∈ body

theorem IsClass.head?_eq {cs : List Char} {found : List Segment} (h : IsClass cs found) :
    cs.head? = some '[' := by
  cases h
  rfl

theorem isCharClass_iff_of_isClass {cs : List Char} {found : List Segment} (h : IsClass cs found) :
    IsCharClass cs ↔ ¬ HasBareClose cs := by
  cases h with
  | @intro pieces body _ _ written _ =>
    have hinner : Escape.isInner ']' = false := by decide
    constructor
    · -- Between the same brackets stands the same text, however it is cut in pieces.
      rintro ⟨inside, hinside, heq⟩ ⟨pieces', body', heq', written', hbare⟩
      have hsame : inside = pieces'.flatten := by simpa using heq.symm.trans heq'
      exact (isEnclosable_flatten hinner written').1 (hsame ▸ hinside) hbare
    · intro hbare
      refine ⟨pieces.flatten, (isEnclosable_flatten hinner written).2 fun hmem => ?_, rfl⟩
      exact hbare ⟨pieces, body, rfl, written, hmem⟩

theorem HasBareClose.charClass? {cs : List Char} (h : HasBareClose cs) :
    ∃ front back, back ≠ [] ∧ cs = front ++ back ∧ Ebnf.charClass? cs = some front := by
  obtain ⟨pieces, body, rfl, written, hbare⟩ := h
  obtain ⟨front, back, hsplit, hfront⟩ := exists_front_of_bare (by decide) written hbare
  have hcs : '[' :: (pieces.flatten ++ [']']) = ('[' :: (front ++ [']'])) ++ (back ++ [']']) := by
    simp [hsplit]
  rw [hcs]
  exact ⟨_, _, by simp, rfl, charClass?_eq_some_iff.2 ⟨⟨front, hfront, rfl⟩, List.prefix_append _ _⟩⟩

end Terminal

namespace Grammar

open Ebnf Terminal

theorem ofText_oneTerminal {name lexeme : String} (hname : isIdentifier name.toList = true)
    (hlexeme : IsTerminal lexeme.toList) (hstar : ¬ ['/', '*'] <+: lexeme.toList) (source : String) :
    ∃ g, ofText source (name ++ " ::= " ++ lexeme) = .ok g ∧ g.rules = [⟨name, [[lexeme]]⟩] := by
  have hparse := parse_of_renders
    (by simpa [oneTerminal, Document.terminals, terminalsOfChoice, terminalsOfSequence,
      Item.terminals] using hstar) (renders_oneTerminal hname hlexeme)
  let g : Grammar := ⟨[⟨name, [[lexeme]]⟩], by simp⟩
  exact ⟨g, ofText_eq_ok_iff.2 ⟨_, hparse, rfl, List.cons_ne_nil _ _⟩, rfl⟩

theorem isCharClass_of_mem_symbols {source text : String} {g : Grammar}
    (h : ofText source text = .ok g) {rule : Rule} (hrule : rule ∈ g.rules) {symbol : Symbol}
    (hsymbol : symbol ∈ rule.symbols) (hhead : symbol.toList.head? = some '[') :
    IsCharClass symbol.toList := by
  obtain ⟨document, hparse, hlower, _⟩ := ofText_eq_ok_iff.1 h
  have hdocument := wellFormed_of_parse hparse hlower
  rw [← hlower] at hrule
  obtain ⟨definition, hdefinition, hrule⟩ := List.mem_flatMap.1 hrule
  rcases hdocument.within_of_mem_lower hdefinition hrule hsymbol with hwrites | ⟨m, _, _, rfl⟩
  · obtain ⟨items, hitems, item, hitem, hwrites⟩ := hwrites
    have hitems := hdocument.items definition hdefinition items hitems item hitem
    rcases hitems.of_writes hwrites with hname | hterminal
    · obtain ⟨cs, hcs⟩ := List.head?_eq_some_iff.1 hhead
      rw [hcs] at hname
      simp [isIdentifier, isIdentifierStart] at hname
    · exact hterminal.isCharClass hhead
  · simp [head?_madeName] at hhead

/-- A class whose members can be listed is a lexeme of grammar text, and a symbol of some grammar that is
read from text, exactly if no closing bracket inside it is bare. Then a rule written with it is read as
the rule with this symbol; and otherwise a shorter class is read. -/
theorem class_in_text_iff {symbol : Symbol} {listed : List Char}
    (h : classMembers symbol = .ok listed) :
    (charClass? symbol.toList = some symbol.toList ↔ ¬ HasBareClose symbol.toList) ∧
    ((∃ source text g, ofText source text = .ok g ∧ ∃ rule ∈ g.rules, symbol ∈ rule.symbols) ↔
      ¬ HasBareClose symbol.toList) ∧
    (¬ HasBareClose symbol.toList → ∀ source name : String, isIdentifier name.toList = true →
      ∃ g, ofText source (name ++ " ::= " ++ symbol) = .ok g ∧ g.rules = [⟨name, [[symbol]]⟩]) ∧
    (HasBareClose symbol.toList → ∃ front back, back ≠ [] ∧ symbol.toList = front ++ back ∧
      charClass? symbol.toList = some front) := by
  obtain ⟨found, hclass⟩ := exists_isClass_of_classMembers h
  have hlexeme := isCharClass_iff_of_isClass hclass
  have hhead : symbol.toList.head? = some '[' := hclass.head?_eq
  have hwritten : ¬ HasBareClose symbol.toList → ∀ source name : String,
      isIdentifier name.toList = true →
      ∃ g, ofText source (name ++ " ::= " ++ symbol) = .ok g ∧ g.rules = [⟨name, [[symbol]]⟩] := by
    intro hbare source name hname
    refine ofText_oneTerminal hname (.inr (.inl (hlexeme.2 hbare))) ?_ source
    rintro ⟨rest, hrest⟩
    simp [← hrest] at hhead
  refine ⟨?_, ⟨?_, ?_⟩, hwritten, HasBareClose.charClass?⟩
  · rw [charClass?_eq_some_iff, ← hlexeme]
    exact and_iff_left (List.prefix_refl _)
  · rintro ⟨source, text, g, hg, rule, hrule, hsymbol⟩
    exact hlexeme.1 (isCharClass_of_mem_symbols hg hrule hsymbol hhead)
  · intro hbare
    obtain ⟨g, hg, hrules⟩ := hwritten hbare inlineSource "a" (by decide)
    exact ⟨inlineSource, _, g, hg, ⟨"a", [[symbol]]⟩, by simp [hrules], by simp [Rule.symbols]⟩

/-- A class that ends in two brackets is listed, and yet it is no lexeme: grammar text ends it at the
first of them. -/
theorem bare_bracket_listed :
    classMembers "[]]" = .ok [']'] ∧ charClass? "[]]".toList = some "[]".toList ∧
      charClass? "[]]".toList ≠ some "[]]".toList := by
  have hclass : charClass? "[]]".toList = some "[]".toList := by cbv
  refine ⟨by cbv, hclass, ?_⟩
  rw [hclass]
  decide

theorem escaped_bracket_in_text :
    classMembers "[-\\]]" = .ok ['-', ']'] ∧
      (charClass? "[-\\]]".toList = some "[-\\]]".toList ↔ ¬ HasBareClose "[-\\]]".toList) ∧
      ∃ g, ofText inlineSource ("sign" ++ " ::= " ++ "[-\\]]") = .ok g ∧
        g.rules = [⟨"sign", [["[-\\]]"]]⟩] := by
  have hlisted : classMembers "[-\\]]" = .ok ['-', ']'] := by cbv
  obtain ⟨hlexeme, _, hwritten, _⟩ := class_in_text_iff hlisted
  have hclass : charClass? "[-\\]]".toList = some "[-\\]]".toList := by cbv
  exact ⟨hlisted, hlexeme, hwritten (hlexeme.1 hclass) inlineSource "sign" (by decide)⟩

end Grammar

end GrammarCompletion
