import GrammarCompletion.Ebnf.Parser

/-! What parsers of grammar text answer, without the record of their attempts. Each way of
combining parsers has one equation here, and later proofs use these alone. -/

namespace GrammarCompletion.Ebnf

theorem Cursor.rest_past {c : Cursor} {w rest : List Char} (h : c.rest = w ++ rest) :
    (c.past w).rest = rest := by
  simp [Cursor.past, h]

namespace Parser

variable {α β : Type}

def answer (p : Parser α) (c : Cursor) : Option (α × Cursor) := (p c).result

@[simp] theorem answer_pure (a : α) (c : Cursor) :
    (pure a : Parser α).answer c = some (a, c) := rfl

@[simp] theorem answer_fail (c : Cursor) : (fail : Parser α).answer c = none := rfl

@[simp] theorem answer_bind (p : Parser α) (f : α → Parser β) (c : Cursor) :
    (p >>= f).answer c = (p.answer c).bind fun r => (f r.1).answer r.2 := by
  change (Parser.bind p f c).result = (p c).result.bind fun r => (f r.1 r.2).result
  unfold Parser.bind
  obtain ⟨result, attempts⟩ := p c
  cases result <;> rfl

@[simp] theorem answer_map (f : α → β) (p : Parser α) (c : Cursor) :
    (f <$> p).answer c = (p.answer c).map fun r => (f r.1, r.2) := rfl

@[simp] theorem answer_orElse (p q : Parser α) (c : Cursor) :
    (p <|> q).answer c = (p.answer c).or (q.answer c) := by
  change (p.orElse q c).result = (p c).result.or (q c).result
  unfold orElse
  obtain ⟨result, attempts⟩ := p c
  cases result <;> rfl

@[simp] theorem answer_named (construct : Construct) (p : Parser α) (c : Cursor) :
    (named construct p).answer c = p.answer c := rfl

@[simp] theorem answer_lexeme (recognise : List Char → Option (List Char)) (c : Cursor) :
    (lexeme recognise).answer c = (recognise c.rest).map fun w => (w, c.past w) := rfl

@[simp] theorem answer_word (text : String) (c : Cursor) :
    (word text).answer c =
      if text.toList <+: c.rest then some ((), c.past text.toList) else none := by
  simp only [word, answer_bind, answer_lexeme, word?, List.isPrefixOf_iff_prefix]
  split <;> rfl

@[simp] theorem answer_skipLayout (c : Cursor) :
    skipLayout.answer c = some ((), c.past (layout c.rest)) := rfl

@[simp] theorem answer_atEnd (c : Cursor) :
    atEnd.answer c = if c.rest = [] then some ((), c) else none := rfl

@[simp] theorem answer_absent (p : Parser α) (c : Cursor) :
    (absent p).answer c = if (p.answer c).isNone then some ((), c) else none := rfl

@[simp] theorem answer_optional (p : Parser α) (c : Cursor) :
    (optional p).answer c = some (((p.answer c).map fun r => (some r.1, r.2)).getD (none, c)) := by
  change (optional p c).result = some (((p c).result.map fun r => (some r.1, r.2)).getD (none, c))
  unfold optional
  obtain ⟨result, attempts⟩ := p c
  cases result <;> rfl

theorem answer_repeatUpTo_succ (p : Parser α) (bound : Nat) (c : Cursor) :
    (repeatUpTo p (bound + 1)).answer c =
      match p.answer c with
      | none => some ([], c)
      | some (a, d) => ((repeatUpTo p bound).answer d).map fun r => (a :: r.1, r.2) := by
  simp only [repeatUpTo, answer_bind, answer_optional]
  cases h : p.answer c <;> rfl

theorem answer_spaced (p : Parser α) (c : Cursor) :
    (spaced p).answer c =
      match p.answer c with
      | none => some ([], c)
      | some (a, d) => ((repeatUpTo (do skipLayout; p) c.rest.length).answer d).map fun r =>
          (a :: r.1, r.2) := by
  change Parser.answer (optional p >>= _) c = _
  simp only [answer_bind, answer_optional]
  cases h : p.answer c <;> rfl

end Parser

end GrammarCompletion.Ebnf
