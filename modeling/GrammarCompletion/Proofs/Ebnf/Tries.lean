import GrammarCompletion.Proofs.Ebnf.Answer

/-! What a diagnosis rests on. The frontier only ever moves to offsets at which a construct was
tried, and it names only constructs tried there; so whatever holds of all tries of a parser holds
of its diagnosis. -/

namespace GrammarCompletion.Ebnf

mutual

def Attempt.tries : Attempt → List (Construct × Nat)
  | .entered construct offset _ inner => (construct, offset) :: triesOf inner
  | .lookahead inner => triesOf inner

def triesOf : List Attempt → List (Construct × Nat)
  | [] => []
  | attempt :: rest => attempt.tries ++ triesOf rest

end

theorem triesOf_append (first second : List Attempt) :
    triesOf (first ++ second) = triesOf first ++ triesOf second := by
  induction first with
  | nil => rfl
  | cons attempt first ih => rw [List.cons_append, triesOf, triesOf, ih, List.append_assoc]

section Frontiers

variable {P : Construct → Nat → Prop}

structure Frontier.Within (P : Construct → Nat → Prop) (f : Frontier) : Prop where
  offset : ∃ construct, P construct f.offset
  expected : ∀ construct ∈ f.expected, P construct f.offset

namespace Frontier

theorem Within.add {f : Frontier} (h : f.Within P) (negated : Bool) {construct : Construct}
    (hc : P construct f.offset) : (f.add negated construct).Within P := by
  unfold Frontier.add
  cases negated with
  | true => exact ⟨h.offset, h.expected⟩
  | false =>
    refine ⟨h.offset, ?_⟩
    intro other hother
    rcases List.mem_append.1 hother with hother | hother
    · exact h.expected other hother
    · rw [List.mem_singleton.1 hother]
      exact hc

theorem Within.record {f : Frontier} (h : f.Within P) (before : Frontier) (negated : Bool)
    {construct : Construct} {offset : Nat} (hc : P construct offset) :
    (record before f negated construct offset).Within P := by
  have hfresh : Within P ⟨offset, [], []⟩ := ⟨⟨construct, hc⟩, by simp⟩
  unfold Frontier.record
  split
  · exact h
  · split
    · rename_i heq
      have hcut : ∀ unexpected count,
          Within P { f with unexpected := unexpected, expected := f.expected.take count } := by
        intro unexpected count
        exact ⟨h.offset, fun other hother => h.expected other (List.mem_of_mem_take hother)⟩
      exact (hcut _ _).add negated (heq ▸ hc)
    · split
      · exact hfresh.add negated hc
      · exact h

end Frontier

mutual

theorem Attempt.within_note (negated : Bool) {f : Frontier} (hf : f.Within P) :
    (attempt : Attempt) → (∀ tried ∈ attempt.tries, P tried.1 tried.2) →
      (attempt.note negated f).Within P
  | .entered construct offset matched inner, h => by
    rw [Attempt.tries, List.forall_mem_cons] at h
    have hinner := within_noteAll negated hf inner h.2
    rw [Attempt.note]
    split
    · exact hinner.record f negated h.1
    · exact hinner
  | .lookahead inner, h => by
    rw [Attempt.tries] at h
    rw [Attempt.note]
    exact within_noteAll (!negated) hf inner h

theorem within_noteAll (negated : Bool) {f : Frontier} (hf : f.Within P) :
    (attempts : List Attempt) → (∀ tried ∈ triesOf attempts, P tried.1 tried.2) →
      (noteAll negated f attempts).Within P
  | [], _ => by
    rw [noteAll]
    exact hf
  | attempt :: rest, h => by
    rw [triesOf, List.forall_mem_append] at h
    have hfirst := attempt.within_note negated hf h.1
    rw [noteAll]
    exact within_noteAll negated hfirst rest h.2

end

theorem Fault.within_ofAttempts {attempts : List Attempt} (hstart : ∃ construct, P construct 0)
    (h : ∀ tried ∈ triesOf attempts, P tried.1 tried.2) :
    (∃ construct, P construct (ofAttempts attempts).offset) ∧
      ∀ construct ∈ (ofAttempts attempts).expected, P construct (ofAttempts attempts).offset := by
  have hbegin : Frontier.start.Within P := ⟨hstart, by simp [Frontier.start]⟩
  obtain ⟨hoffset, hexpected⟩ := within_noteAll false hbegin attempts h
  refine ⟨hoffset, ?_⟩
  intro construct hconstruct
  have hmem : decide (construct ∈ _) = true := (List.mem_filter.1 hconstruct).2
  exact hexpected construct (of_decide_eq_true hmem)

end Frontiers

namespace Parser

variable {α β : Type}

def tries (p : Parser α) (c : Cursor) : List (Construct × Nat) := triesOf (p c).attempts

@[simp] theorem tries_pure (a : α) (c : Cursor) : (pure a : Parser α).tries c = [] := rfl

@[simp] theorem tries_fail (c : Cursor) : (fail : Parser α).tries c = [] := rfl

@[simp] theorem tries_bind (p : Parser α) (f : α → Parser β) (c : Cursor) :
    (p >>= f).tries c =
      p.tries c ++ ((p.answer c).map fun r => (f r.1).tries r.2).getD [] := by
  change triesOf (Parser.bind p f c).attempts = triesOf (p c).attempts ++
    ((p c).result.map fun r => triesOf (f r.1 r.2).attempts).getD []
  unfold Parser.bind
  obtain ⟨result, attempts⟩ := p c
  cases result with
  | none => simp
  | some r => exact triesOf_append _ _

theorem tries_orElse_subset (p q : Parser α) (c : Cursor) :
    (p <|> q).tries c ⊆ p.tries c ++ q.tries c := by
  change triesOf (p.orElse q c).attempts ⊆ triesOf (p c).attempts ++ triesOf (q c).attempts
  unfold orElse
  obtain ⟨result, attempts⟩ := p c
  cases result with
  | none =>
    rw [← triesOf_append]
    exact List.Subset.refl _
  | some r => exact List.subset_append_left _ _

@[simp] theorem tries_named (construct : Construct) (p : Parser α) (c : Cursor) :
    (named construct p).tries c = (construct, c.offset) :: p.tries c := by
  change triesOf [.entered construct c.offset _ _] = _
  rw [triesOf, Attempt.tries, triesOf, List.append_nil]
  rfl

@[simp] theorem tries_lexeme (recognise : List Char → Option (List Char)) (c : Cursor) :
    (lexeme recognise).tries c = [] := rfl

@[simp] theorem tries_word (text : String) (c : Cursor) : (word text).tries c = [] := by
  rw [word, tries_bind, tries_lexeme, List.nil_append]
  cases (lexeme (word? text.toList)).answer c <;> rfl

@[simp] theorem tries_skipLayout (c : Cursor) : skipLayout.tries c = [] := rfl

@[simp] theorem tries_atEnd (c : Cursor) : atEnd.tries c = [] := rfl

@[simp] theorem tries_absent (p : Parser α) (c : Cursor) : (absent p).tries c = p.tries c := by
  change triesOf [.lookahead (p c).attempts] = _
  rw [triesOf, Attempt.tries, triesOf, List.append_nil]
  rfl

@[simp] theorem tries_optional (p : Parser α) (c : Cursor) :
    (optional p).tries c = p.tries c := by
  change triesOf (optional p c).attempts = triesOf (p c).attempts
  unfold optional
  obtain ⟨result, attempts⟩ := p c
  cases result <;> rfl

theorem tries_repeatUpTo_succ (p : Parser α) (bound : Nat) (c : Cursor) :
    (repeatUpTo p (bound + 1)).tries c =
      p.tries c ++ ((p.answer c).map fun r => (repeatUpTo p bound).tries r.2).getD [] := by
  simp only [repeatUpTo, tries_bind, tries_optional, answer_optional]
  cases p.answer c <;> rfl

theorem tries_spaced (p : Parser α) (c : Cursor) :
    (spaced p).tries c = p.tries c ++ ((p.answer c).map fun r =>
      (repeatUpTo (do skipLayout; p) c.rest.length).tries r.2).getD [] := by
  change Parser.tries (optional p >>= _) c = _
  simp only [tries_bind, tries_optional, answer_optional]
  cases p.answer c <;> rfl

end Parser

end GrammarCompletion.Ebnf
