import GrammarCompletion.Proofs.Terminal.Spelling

/-! What literals decode to. A literal spells a text between two equal quotes, character by character,
each as it is or by an escape. It is decoded exactly as the text it spells; so it spells one text only,
although most characters can be written in several ways. -/

namespace GrammarCompletion.Terminal

def CharSpelling (quote c : Char) (piece : List Char) : Prop :=
  ∃ escaped, Atom.WrittenAs (some quote) ⟨c, escaped⟩ piece

/-- The literal consists of the quote, a spelling for each character of the text, and the quote. -/
def SpelledIn (quote : Char) (text literal : List Char) : Prop :=
  ∃ pieces : List (List Char), literal = quote :: (pieces.flatten ++ [quote]) ∧
    List.Forall₂ (CharSpelling quote) text pieces

theorem exists_atoms_iff {quote : Char} {text : List Char} {pieces : List (List Char)} :
    (∃ found : List Atom, found.map Atom.char = text ∧
        List.Forall₂ (Atom.WrittenAs (some quote)) found pieces) ↔
      List.Forall₂ (CharSpelling quote) text pieces := by
  constructor
  · rintro ⟨found, rfl, hfound⟩
    rw [List.forall₂_map_left_iff]
    exact hfound.imp fun atom piece h => ⟨atom.escaped, h⟩
  · intro h
    induction h with
    | nil => exact ⟨[], rfl, .nil⟩
    | @cons c piece text pieces hpiece _ ih =>
      obtain ⟨escaped, hatom⟩ := hpiece
      obtain ⟨found, rfl, hfound⟩ := ih
      exact ⟨⟨c, escaped⟩ :: found, rfl, .cons hatom hfound⟩

theorem unquote_eq_ok_iff {literal text : String} :
    unquote literal = .ok text ↔
      ∃ quote, (quote = '"' ∨ quote = '\'') ∧ SpelledIn quote text.toList literal.toList := by
  constructor
  · intro h
    obtain ⟨quote, body, hquote, hliteral⟩ := exists_body_of_unquote h
    rw [unquote_of_isEnclosed hquote hliteral] at h
    obtain ⟨found, hfound, htext⟩ := exists_ok_of_map h
    obtain ⟨pieces, rfl, hpieces⟩ := atoms_eq_ok_iff.1 hfound
    refine ⟨quote, hquote, pieces, hliteral, exists_atoms_iff.1 ⟨found, ?_, hpieces⟩⟩
    rw [← htext, String.toList_ofList]
  · rintro ⟨quote, hquote, pieces, hliteral, hpieces⟩
    obtain ⟨found, htext, hfound⟩ := exists_atoms_iff.2 hpieces
    rw [unquote_of_isEnclosed hquote hliteral, atoms_eq_ok_iff.2 ⟨pieces, rfl, hfound⟩]
    simp [Except.map, htext]

theorem exists_charSpelling (quote c : Char) (hquote : quote = '"' ∨ quote = '\'') :
    ∃ piece, CharSpelling quote c piece := by
  by_cases hplain : c = '\\' ∨ c = quote
  · have hself : c ∈ ['\\', '"', '\'', '/', ']', '[', '-', '^'] := by
      rcases hplain with rfl | rfl
      · decide
      · rcases hquote with rfl | rfl <;> decide
    exact ⟨_, true, .escape (.itself hself)⟩
  · rw [not_or] at hplain
    exact ⟨_, false, .plain hplain.1 fun heq => hplain.2 (Option.some.inj heq).symm⟩

theorem exists_spelledIn {quote : Char} (hquote : quote = '"' ∨ quote = '\'') (text : List Char) :
    ∃ literal, SpelledIn quote text literal := by
  suffices hpieces : ∃ pieces, List.Forall₂ (CharSpelling quote) text pieces by
    obtain ⟨pieces, hpieces⟩ := hpieces
    exact ⟨_, pieces, rfl, hpieces⟩
  induction text with
  | nil => exact ⟨[], .nil⟩
  | cons c text ih =>
    obtain ⟨pieces, hpieces⟩ := ih
    obtain ⟨piece, hpiece⟩ := exists_charSpelling quote c hquote
    exact ⟨piece :: pieces, .cons hpiece hpieces⟩

/-- A literal decodes to exactly the text that it spells between its quotes. Every text is spelled by
some literal in either quote, and no literal spells two texts. -/
theorem unquote_reads_spellings :
    (∀ literal text : String, unquote literal = .ok text ↔
      ∃ quote, (quote = '"' ∨ quote = '\'') ∧ SpelledIn quote text.toList literal.toList) ∧
    (∀ (text : String) (quote : Char), quote = '"' ∨ quote = '\'' →
      ∃ literal : String, SpelledIn quote text.toList literal.toList ∧
        unquote literal = .ok text) ∧
    ∀ (literal : String) (quote quote' : Char) (text text' : String),
      (quote = '"' ∨ quote = '\'') → SpelledIn quote text.toList literal.toList →
        (quote' = '"' ∨ quote' = '\'') → SpelledIn quote' text'.toList literal.toList →
          text = text' := by
  refine ⟨fun _ _ => unquote_eq_ok_iff, ?_, ?_⟩
  · intro text quote hquote
    obtain ⟨literal, hliteral⟩ := exists_spelledIn hquote text.toList
    have hspelled : SpelledIn quote text.toList (String.ofList literal).toList := by
      rw [String.toList_ofList]
      exact hliteral
    exact ⟨String.ofList literal, hspelled, unquote_eq_ok_iff.2 ⟨quote, hquote, hspelled⟩⟩
  · intro literal quote quote' text text' hquote h hquote' h'
    have htext := unquote_eq_ok_iff.2 ⟨quote, hquote, h⟩
    have htext' := unquote_eq_ok_iff.2 ⟨quote', hquote', h'⟩
    exact Except.ok.inj (htext.symm.trans htext')

theorem spelledIn_mixed :
    SpelledIn '\'' "Aé\\\"".toList "'\\u\x7b041\x7dé\\x5c\"'".toList := by
  have hnumeral : Text.IsNumeral ['0', '4', '1'] 'A'.toNat := Text.hexValue?_eq_some_iff.1 (by rfl)
  have hslash : Text.IsNumeral ['5', 'c'] '\\'.toNat := Text.hexValue?_eq_some_iff.1 (by rfl)
  refine ⟨[['\\', 'u', '{', '0', '4', '1', '}'], ['é'], ['\\', 'x', '5', 'c'], ['"']], by rfl, ?_⟩
  refine .cons ⟨true, .escape (.braced (by decide) (by decide) hnumeral)⟩ ?_
  refine .cons ⟨false, .plain (by decide) (by decide)⟩ ?_
  refine .cons ⟨true, .escape (.two rfl hslash)⟩ ?_
  exact .cons ⟨false, .plain (by decide) (by decide)⟩ .nil

theorem unquote_mixed :
    unquote "'\\u\x7b041\x7dé\\x5c\"'" = .ok "Aé\\\"" ∧
      (∃ literal : String, SpelledIn '"' "Aé\\\"".toList literal.toList ∧
        unquote literal = .ok "Aé\\\"") ∧
      ∀ text' : String, SpelledIn '\'' text'.toList "'\\u\x7b041\x7dé\\x5c\"'".toList →
        "Aé\\\"" = text' := by
  obtain ⟨hreads, hall, honce⟩ := unquote_reads_spellings
  exact ⟨(hreads _ _).2 ⟨'\'', .inr rfl, spelledIn_mixed⟩, hall _ '"' (.inl rfl),
    fun _ => honce _ '\'' '\'' _ _ (.inr rfl) spelledIn_mixed (.inr rfl)⟩

end GrammarCompletion.Terminal
