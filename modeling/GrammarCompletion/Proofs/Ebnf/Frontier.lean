import GrammarCompletion.Proofs.Ebnf.Acceptance
import GrammarCompletion.Proofs.Ebnf.Reading

/-! What a parser adds to the frontier. Of two frontiers the further one stands, and at the same
offset the names of both are kept. In this sense the attempts of a parser add to the frontier they
meet what they leave of an empty one, so each way of combining parsers has one equation for what it
adds. -/

namespace GrammarCompletion.Ebnf

namespace Frontier

def join (f g : Frontier) : Frontier :=
  if f.offset < g.offset then g
  else if g.offset < f.offset then f
  else ⟨f.offset, f.unexpected ++ g.unexpected, f.expected ++ g.expected⟩

def only (negated : Bool) (construct : Construct) (offset : Nat) : Frontier :=
  add ⟨offset, [], []⟩ negated construct

def settle (f : Frontier) (negated : Bool) (construct : Construct) (offset : Nat) : Frontier :=
  if offset < f.offset ∨ f.count offset = 1 then f else only negated construct offset

section Join

variable {f g : Frontier}

theorem join_of_lt (h : f.offset < g.offset) : f.join g = g := if_pos h

theorem join_of_gt (h : g.offset < f.offset) : f.join g = f := by
  rw [join, if_neg (by omega), if_pos h]

theorem join_of_eq (h : f.offset = g.offset) :
    f.join g = ⟨f.offset, f.unexpected ++ g.unexpected, f.expected ++ g.expected⟩ := by
  rw [join, if_neg (by omega), if_neg (by omega)]

theorem join_same (offset : Nat) (us es us' es' : List Construct) :
    join ⟨offset, us, es⟩ ⟨offset, us', es'⟩ = ⟨offset, us ++ us', es ++ es'⟩ :=
  join_of_eq rfl

@[simp] theorem offset_only (negated : Bool) (construct : Construct) (offset : Nat) :
    (only negated construct offset).offset = offset := by
  cases negated <;> rfl

theorem only_false (construct : Construct) (offset : Nat) :
    only false construct offset = ⟨offset, [], [construct]⟩ := rfl

theorem offset_join (f g : Frontier) : (f.join g).offset = max f.offset g.offset := by
  rcases Nat.lt_trichotomy f.offset g.offset with h | h | h
  · rw [join_of_lt h, Nat.max_eq_right (Nat.le_of_lt h)]
  · rw [join_of_eq h, h, Nat.max_self]
  · rw [join_of_gt h, Nat.max_eq_left (Nat.le_of_lt h)]

@[simp] theorem start_join (f : Frontier) : start.join f = f := by
  rcases Nat.eq_zero_or_pos f.offset with h | h
  · rw [join_of_eq h.symm]
    change (⟨0, f.unexpected, f.expected⟩ : Frontier) = f
    rw [← h]
  · exact join_of_lt h

@[simp] theorem join_start (f : Frontier) : f.join start = f := by
  rcases Nat.eq_zero_or_pos f.offset with h | h
  · rw [join_of_eq h]
    simp [start]
  · exact join_of_gt h

theorem join_assoc (f g h : Frontier) : (f.join g).join h = f.join (g.join h) := by
  unfold join
  grind

theorem settle_start (negated : Bool) (construct : Construct) (offset : Nat) :
    start.settle negated construct offset = only negated construct offset := by
  have hcount : start.count offset = 0 := by
    unfold count
    split <;> rfl
  refine if_neg ?_
  rw [hcount]
  simp [start]

theorem settle_of_lt {offset : Nat} (h : offset < f.offset) (negated : Bool)
    (construct : Construct) : f.settle negated construct offset = f :=
  if_pos (.inl h)

theorem settle_of_ne {offset : Nat} (h : f.offset = offset)
    (hne : f.unexpected.length + f.expected.length ≠ 1) (negated : Bool) (construct : Construct) :
    f.settle negated construct offset = only negated construct offset := by
  have hcount : f.count offset = f.unexpected.length + f.expected.length := if_pos h.symm
  refine if_neg ?_
  rw [hcount]
  omega

theorem settle_only (inner construct : Construct) (negated : Bool) (offset : Nat) :
    (only negated inner offset).settle negated construct offset = only negated inner offset := by
  refine if_pos (.inr ?_)
  cases negated <;> simp [only, add, count]

/-- A construct that was tried in vain changes what it added to the frontier, and nothing else: it is
counted what stands behind the frontier met, and cut off there. -/
theorem record_join (before f : Frontier) (negated : Bool) (construct : Construct) (offset : Nat) :
    record before (before.join f) negated construct offset =
      before.join (f.settle negated construct offset) := by
  rcases Nat.lt_trichotomy before.offset f.offset with h | h | h
  · rw [join_of_lt h]
    unfold record settle only add count join
    cases negated <;> grind
  · rw [join_of_eq h]
    have hcut : ∀ names more : List Construct, (names ++ more).take names.length = names :=
      fun names more => List.take_left
    unfold record settle only add count join
    cases negated <;> grind
  · rw [join_of_gt h]
    unfold record settle only add count join
    cases negated <;> grind

end Join

end Frontier

mutual

theorem Attempt.note_eq_join (negated : Bool) (f : Frontier) :
    (attempt : Attempt) → attempt.note negated f = f.join (attempt.note negated .start)
  | .entered construct offset matched inner => by
    have hinner := noteAll_eq_join negated f inner
    have hrecord : ∀ found : Frontier, Frontier.record .start found negated construct offset =
        found.settle negated construct offset := by
      intro found
      have hstart := Frontier.record_join .start found negated construct offset
      rwa [Frontier.start_join, Frontier.start_join] at hstart
    rw [Attempt.note, Attempt.note]
    split
    · rw [hrecord, hinner, Frontier.record_join]
    · exact hinner
  | .lookahead inner => by
    rw [Attempt.note, Attempt.note]
    exact noteAll_eq_join (!negated) f inner

/-- What attempts add to a frontier does not depend on it. -/
theorem noteAll_eq_join (negated : Bool) (f : Frontier) :
    (attempts : List Attempt) → noteAll negated f attempts = f.join (noteAll negated .start attempts)
  | [] => by
    rw [noteAll, noteAll, Frontier.join_start]
  | attempt :: rest => by
    rw [noteAll, noteAll, noteAll_eq_join negated (attempt.note negated f) rest,
      noteAll_eq_join negated (attempt.note negated .start) rest, attempt.note_eq_join negated f,
      Frontier.join_assoc]

end

theorem noteAll_append (negated : Bool) (f : Frontier) (first second : List Attempt) :
    noteAll negated f (first ++ second) = noteAll negated (noteAll negated f first) second := by
  induction first generalizing f with
  | nil => rfl
  | cons attempt first ih => rw [List.cons_append, noteAll, noteAll, ih]

abbrev Cursor.skip (c : Cursor) : Cursor := c.past (layout c.rest)

theorem Cursor.skip_of_layout_eq_nil {c : Cursor} (h : layout c.rest = []) : c.skip = c := by
  rw [Cursor.skip, h, Cursor.past_nil]

theorem Cursor.length_skip_le (c : Cursor) : c.skip.rest.length ≤ c.rest.length :=
  (Passes.layout c).length_le

theorem Cursor.offset_le_skip (c : Cursor) : c.offset ≤ c.skip.offset :=
  (Passes.layout c).offset_le

theorem Cursor.layout_skip (c : Cursor) : layout c.skip.rest = [] := layout_afterLayout c.rest

theorem Cursor.skip_skip (c : Cursor) : c.skip.skip = c.skip :=
  Cursor.skip_of_layout_eq_nil c.layout_skip

theorem Cursor.skip_past_lt {c : Cursor} {x : Char} {behind : List Char} (h : c.rest = x :: behind) :
    (c.past [x]).skip.rest.length < c.rest.length ∧ c.offset < (c.past [x]).skip.offset := by
  have hrest : (c.past [x]).rest = behind := Cursor.rest_past h
  have hoffset : (c.past [x]).offset = c.offset + x.utf8Size := rfl
  have hsize := Char.utf8Size_pos x
  have hlength := (c.past [x]).length_skip_le
  have hplace := (c.past [x]).offset_le_skip
  rw [hrest] at hlength
  rw [h, List.length_cons]
  omega

namespace Parser

variable {α β : Type}

def frontier (p : Parser α) (negated : Bool) (c : Cursor) : Frontier :=
  noteAll negated .start (p c).attempts

variable (negated : Bool) (c : Cursor)

@[simp] theorem frontier_pure (a : α) : (pure a : Parser α).frontier negated c = .start := rfl

@[simp] theorem frontier_bind (p : Parser α) (f : α → Parser β) :
    (p >>= f).frontier negated c = (p.frontier negated c).join
      (((p.answer c).map fun r => (f r.1).frontier negated r.2).getD .start) := by
  change noteAll negated .start (Parser.bind p f c).attempts =
    (noteAll negated .start (p c).attempts).join
      (((p c).result.map fun r => noteAll negated .start (f r.1 r.2).attempts).getD .start)
  unfold Parser.bind
  obtain ⟨result, attempts⟩ := p c
  cases result with
  | none => exact (Frontier.join_start _).symm
  | some r => exact (noteAll_append _ _ _ _).trans (noteAll_eq_join _ _ _)

@[simp] theorem frontier_map (f : α → β) (p : Parser α) :
    (f <$> p).frontier negated c = p.frontier negated c := rfl

@[simp] theorem frontier_orElse (p q : Parser α) :
    (p <|> q).frontier negated c = (p.frontier negated c).join
      (if (p.answer c).isSome then .start else q.frontier negated c) := by
  change noteAll negated .start (p.orElse q c).attempts =
    (noteAll negated .start (p c).attempts).join
      (if (p c).result.isSome then .start else noteAll negated .start (q c).attempts)
  unfold orElse
  obtain ⟨result, attempts⟩ := p c
  cases result with
  | none => exact (noteAll_append _ _ _ _).trans (noteAll_eq_join _ _ _)
  | some r => exact (Frontier.join_start _).symm

theorem frontier_named (construct : Construct) (p : Parser α) :
    (named construct p).frontier negated c =
      if (p.answer c).isSome = negated
      then (p.frontier negated c).settle negated construct c.offset
      else p.frontier negated c := by
  change noteAll negated .start [.entered construct c.offset (p c).result.isSome (p c).attempts] = _
  rw [noteAll, noteAll, Attempt.note]
  have hrecord := Frontier.record_join .start (p.frontier negated c) negated construct c.offset
  rw [Frontier.start_join, Frontier.start_join] at hrecord
  change (if (p.answer c).isSome = negated then
    Frontier.record .start (p.frontier negated c) negated construct c.offset
    else p.frontier negated c) = _
  rw [hrecord]

section Inside

variable {negated} {c}

theorem frontier_bind_of_some {p : Parser α} {f : α → Parser β} {a : α} {d : Cursor}
    (h : p.answer c = some (a, d)) :
    (p >>= f).frontier negated c = (p.frontier negated c).join ((f a).frontier negated d) := by
  rw [frontier_bind, h]
  rfl

theorem frontier_bind_of_none {p : Parser α} {f : α → Parser β} (h : p.answer c = none) :
    (p >>= f).frontier negated c = p.frontier negated c := by
  rw [frontier_bind, h]
  exact Frontier.join_start _

theorem frontier_named_of_isSome {p : Parser α} (construct : Construct)
    (h : (p.answer c).isSome = true) :
    (named construct p).frontier false c = p.frontier false c := by
  rw [frontier_named, h]
  rfl

theorem frontier_named_of_eq_none {p : Parser α} (construct : Construct)
    (h : p.answer c = none) : (named construct p).frontier false c =
      (p.frontier false c).settle false construct c.offset := by
  rw [frontier_named, h]
  rfl

theorem frontier_named_of_start {p : Parser α} (construct : Construct)
    (h : p.frontier false c = .start) : (named construct p).frontier false c =
      if (p.answer c).isSome then .start else .only false construct c.offset := by
  rw [frontier_named, h, Frontier.settle_start]
  cases p.answer c <;> rfl

theorem offset_frontier_orElse_le {p q : Parser α} {o : Nat}
    (hp : (p.frontier negated c).offset ≤ o)
    (hq : p.answer c = none → (q.frontier negated c).offset ≤ o) :
    ((p <|> q).frontier negated c).offset ≤ o := by
  rw [frontier_orElse, Frontier.offset_join]
  cases h : p.answer c with
  | none => exact Nat.max_le.2 ⟨hp, hq h⟩
  | some r => exact Nat.max_le.2 ⟨hp, Nat.zero_le _⟩

end Inside

@[simp] theorem frontier_lexeme (recognise : List Char → Option (List Char)) :
    (lexeme recognise).frontier negated c = .start := rfl

@[simp] theorem frontier_word (text : String) : (word text).frontier negated c = .start := by
  rw [word, frontier_bind, frontier_lexeme, Frontier.start_join]
  cases (lexeme (word? text.toList)).answer c <;> rfl

theorem frontier_word_return (text : String) (a : α) :
    (do word text; return a : Parser α).frontier negated c = .start := by
  rw [frontier_bind, frontier_word, Frontier.start_join]
  cases (word text).answer c <;> rfl

@[simp] theorem frontier_skipLayout : skipLayout.frontier negated c = .start := rfl

@[simp] theorem frontier_atEnd : atEnd.frontier negated c = .start := rfl

@[simp] theorem frontier_absent (p : Parser α) :
    (absent p).frontier negated c = p.frontier (!negated) c := by
  change noteAll negated .start [.lookahead (p c).attempts] = _
  rw [noteAll, noteAll, Attempt.note]
  rfl

@[simp] theorem frontier_optional (p : Parser α) :
    (optional p).frontier negated c = p.frontier negated c := by
  change noteAll negated .start (optional p c).attempts = noteAll negated .start (p c).attempts
  unfold optional
  obtain ⟨result, attempts⟩ := p c
  cases result <;> rfl

theorem frontier_repeatUpTo_succ (p : Parser α) (bound : Nat) :
    (repeatUpTo p (bound + 1)).frontier negated c = (p.frontier negated c).join
      (((p.answer c).map fun r => (repeatUpTo p bound).frontier negated r.2).getD .start) := by
  simp only [repeatUpTo, frontier_bind, frontier_optional, answer_optional]
  cases p.answer c <;> rfl

section Loops

variable {p : Parser α} {c : Cursor} {Keeps Ends : Cursor → Frontier → Prop}

theorem frontier_skipLayout_then (p : Parser α) :
    (do skipLayout; p : Parser α).frontier negated c = p.frontier negated c.skip := by
  rw [frontier_bind, frontier_skipLayout, answer_skipLayout, Frontier.start_join]
  rfl

theorem frontier_spaced (p : Parser α) (hc : layout c.rest = []) :
    (spaced p).frontier negated c =
      (repeatUpTo (do skipLayout; p) (c.rest.length + 1)).frontier negated c := by
  rw [frontier_repeatUpTo_succ, frontier_skipLayout_then, answer_skipLayout_then, Cursor.skip, hc,
    Cursor.past_nil]
  change Parser.frontier (optional p >>= _) negated c = _
  simp only [frontier_bind, frontier_optional, answer_optional]
  cases p.answer c <;> rfl

/-- A loop whose rounds go on in the text ends at a place where the next round would fail, with what
its rounds and this failure have added to the frontier. -/
theorem exists_answer_repeatUpTo
    (hround : ∀ d f a e, Keeps d f → p.answer d.skip = some (a, e) →
      e.rest.length < d.rest.length ∧ Keeps e (f.join (p.frontier negated d.skip)))
    (hend : ∀ d f, Keeps d f → p.answer d.skip = none →
      Ends d (f.join (p.frontier negated d.skip)))
    (bound : Nat) {f : Frontier} (hbound : c.rest.length < bound) (h : Keeps c f) :
    ∃ as d, (repeatUpTo (do skipLayout; p) bound).answer c = some (as, d) ∧
      Ends d (f.join ((repeatUpTo (do skipLayout; p) bound).frontier negated c)) := by
  induction bound generalizing c f with
  | zero => exact absurd hbound (Nat.not_lt_zero _)
  | succ bound ih =>
    rw [answer_repeatUpTo_succ, frontier_repeatUpTo_succ, answer_skipLayout_then,
      frontier_skipLayout_then]
    cases hp : p.answer c.skip with
    | none =>
      have hlast := hend c f h hp
      rw [← Frontier.join_start (p.frontier negated c.skip)] at hlast
      exact ⟨[], c, rfl, hlast⟩
    | some r =>
      obtain ⟨a, e⟩ := r
      obtain ⟨hlength, hkeeps⟩ := hround c f a e h hp
      obtain ⟨as, d, hanswer, hends⟩ := ih (by omega) hkeeps
      rw [Frontier.join_assoc] at hends
      simp only [hanswer]
      exact ⟨a :: as, d, rfl, hends⟩

theorem exists_answer_spaced
    (hround : ∀ d f a e, Keeps d f → p.answer d.skip = some (a, e) →
      e.rest.length < d.rest.length ∧ Keeps e (f.join (p.frontier negated d.skip)))
    (hend : ∀ d f, Keeps d f → p.answer d.skip = none →
      Ends d (f.join (p.frontier negated d.skip)))
    {f : Frontier} (hc : layout c.rest = []) (h : Keeps c f) :
    ∃ as d, (spaced p).answer c = some (as, d) ∧
      Ends d (f.join ((spaced p).frontier negated c)) := by
  rw [answer_spaced_of_layout_eq_nil p hc, frontier_spaced negated p hc]
  exact exists_answer_repeatUpTo negated hround hend _ (Nat.lt_succ_self _) h

end Loops

end Parser

end GrammarCompletion.Ebnf
