import GrammarCompletion.Ebnf.Document

/-! What the lexemes of grammar text look like, said without the recognisers, and that each
recogniser finds exactly the lexeme at the front of the text. -/

namespace GrammarCompletion.Ebnf

def isIdentifier : List Char → Bool
  | [] => false
  | c :: cs => isIdentifierStart c && cs.all isIdentifierRest

/-- The text may stand in front of `close`: backslashes come with the character they hide, and
`close` occurs only so hidden. -/
def isEnclosable (close : Char) : List Char → Bool
  | [] => true
  | c :: cs =>
    if c = '\\' then
      match cs with
      | [] => false
      | _ :: ds => isEnclosable close ds
    else c ≠ close && isEnclosable close cs

def IsEnclosed (opening close : Char) (cs : List Char) : Prop :=
  ∃ body, isEnclosable close body = true ∧ cs = opening :: (body ++ [close])

def IsLiteral (cs : List Char) : Prop := IsEnclosed '"' '"' cs ∨ IsEnclosed '\'' '\'' cs

def IsCharClass (cs : List Char) : Prop := IsEnclosed '[' ']' cs

def IsPattern (cs : List Char) : Prop := IsEnclosed '/' '/' cs ∧ cs ≠ ['/', '/']

def IsTerminal (cs : List Char) : Prop := IsLiteral cs ∨ IsCharClass cs ∨ IsPattern cs

theorem IsTerminal.exists_head {cs : List Char} (h : IsTerminal cs) :
    ∃ c rest, cs = c :: rest ∧ (c = '"' ∨ c = '\'' ∨ c = '[' ∨ c = '/') := by
  rcases h with (⟨body, _, rfl⟩ | ⟨body, _, rfl⟩) | ⟨body, _, rfl⟩ | ⟨⟨body, _, rfl⟩, _⟩
  all_goals exact ⟨_, _, rfl, by simp⟩

theorem takeWhile_ne_append {c : Char} {xs : List Char} (hxs : c ∉ xs) (ys : List Char)
    (hys : ∀ d ∈ ys.head?, d = c) : (xs ++ ys).takeWhile (· ≠ c) = xs := by
  have hpos : ∀ d ∈ xs, decide (d ≠ c) = true := by
    intro d hd
    rw [decide_eq_true_eq]
    rintro rfl
    exact hxs hd
  rw [List.takeWhile_append_of_pos hpos]
  cases ys with
  | nil => simp
  | cons d ys =>
    obtain rfl := hys d rfl
    simp

theorem isIdentifier_of_identifier? {cs w : List Char} (h : identifier? cs = some w) :
    isIdentifier w = true ∧ w <+: cs := by
  cases cs with
  | nil => simp [identifier?] at h
  | cons c cs =>
    simp only [identifier?, Option.ite_none_right_eq_some, Option.some.injEq] at h
    obtain ⟨hstart, rfl⟩ := h
    refine ⟨?_, ?_⟩
    · simp only [isIdentifier, hstart, List.all_takeWhile, Bool.and_self]
    · exact List.prefix_cons_inj c |>.2 (List.takeWhile_prefix _)

theorem head?_of_identifier?_append {w rest : List Char} (h : identifier? (w ++ rest) = some w) :
    ∀ c ∈ rest.head?, isIdentifierRest c = false := by
  cases w with
  | nil =>
    have hid := (isIdentifier_of_identifier? h).1
    simp [isIdentifier] at hid
  | cons d w =>
    simp only [List.cons_append, identifier?, Option.ite_none_right_eq_some, Option.some.injEq,
      List.cons.injEq, true_and] at h
    have hsplit := @List.takeWhile_append_dropWhile _ isIdentifierRest (w ++ rest)
    rw [h.2] at hsplit
    have hnot := List.head?_dropWhile_not isIdentifierRest (w ++ rest)
    rw [List.append_cancel_left hsplit] at hnot
    intro c hc
    rw [hc] at hnot
    exact hnot

theorem identifier?_append {w rest : List Char} (hw : isIdentifier w = true)
    (hrest : ∀ c ∈ rest.head?, isIdentifierRest c = false) :
    identifier? (w ++ rest) = some w := by
  cases w with
  | nil => simp [isIdentifier] at hw
  | cons c w =>
    simp only [isIdentifier, Bool.and_eq_true, List.all_eq_true] at hw
    have hnone : rest.takeWhile isIdentifierRest = [] := by
      cases rest with
      | nil => rfl
      | cons d rest => simp [hrest d rfl]
    simp only [identifier?, List.cons_append, if_pos hw.1, List.takeWhile_append_of_pos hw.2,
      hnone, List.append_nil]

theorem throughClose?_self (close : Char) (cs : List Char) :
    throughClose? close (close :: cs) = some [close] := by
  unfold throughClose?
  rw [if_pos rfl]

theorem throughClose?_escape {close : Char} (hclose : close ≠ '\\') (d : Char) (ds : List Char) :
    throughClose? close ('\\' :: d :: ds) =
      (throughClose? close ds).map fun body => '\\' :: d :: body := by
  rw [throughClose?, if_neg hclose.symm, if_pos rfl]

theorem throughClose?_cons {close c : Char} (hclose : c ≠ close) (hc : c ≠ '\\')
    (cs : List Char) : throughClose? close (c :: cs) = (throughClose? close cs).map (c :: ·) := by
  rw [throughClose?.eq_def]
  simp only [hclose, hc, if_false]

theorem isEnclosable_cons {close c : Char} (hclose : c ≠ close) (hc : c ≠ '\\')
    (cs : List Char) : isEnclosable close (c :: cs) = isEnclosable close cs := by
  rw [isEnclosable.eq_def]
  simp only [hclose, hc, if_false, ne_eq, not_false_eq_true, decide_true, Bool.true_and]

theorem throughClose?_append {close : Char} (hclose : close ≠ '\\') {body : List Char}
    (hbody : isEnclosable close body = true) (rest : List Char) :
    throughClose? close (body ++ close :: rest) = some (body ++ [close]) := by
  fun_induction isEnclosable close body with
  | case1 => exact throughClose?_self close rest
  | case2 => simp at hbody
  | case3 d ds ih =>
    rw [List.cons_append, List.cons_append, throughClose?_escape hclose, ih hbody]
    rfl
  | case4 c cs hc ih =>
    simp only [Bool.and_eq_true, decide_eq_true_eq] at hbody
    rw [List.cons_append, throughClose?_cons hbody.1 hc, ih hbody.2]
    rfl

theorem isEnclosable_of_throughClose? {close : Char} {cs w : List Char}
    (h : throughClose? close cs = some w) :
    ∃ body, isEnclosable close body = true ∧ w = body ++ [close] ∧ w <+: cs := by
  fun_induction throughClose? close cs generalizing w with
  | case1 => simp at h
  | case2 cs =>
    obtain rfl := Option.some.inj h
    exact ⟨[], rfl, rfl, by simp⟩
  | case3 => simp at h
  | case4 d ds hc ih =>
    obtain ⟨w, hw, rfl⟩ := Option.map_eq_some_iff.1 h
    obtain ⟨body, hbody, rfl, hpre⟩ := ih hw
    exact ⟨'\\' :: d :: body, by simpa [isEnclosable] using hbody, rfl, by simpa using hpre⟩
  | case5 c cs hclose hc ih =>
    obtain ⟨w, hw, rfl⟩ := Option.map_eq_some_iff.1 h
    obtain ⟨body, hbody, rfl, hpre⟩ := ih hw
    exact ⟨c :: body, (isEnclosable_cons hclose hc body).trans hbody, rfl, by simpa using hpre⟩

/-- A text between `opening` and `close` is found where it stands, and nothing else is. -/
theorem throughClose?_eq_some_iff {opening close : Char} (hclose : close ≠ '\\')
    {cs w : List Char} :
    ((throughClose? close cs).map (opening :: ·)) = some w ↔
      IsEnclosed opening close w ∧ w <+: opening :: cs := by
  constructor
  · intro h
    obtain ⟨w, hw, rfl⟩ := Option.map_eq_some_iff.1 h
    obtain ⟨body, hbody, rfl, hpre⟩ := isEnclosable_of_throughClose? hw
    exact ⟨⟨body, hbody, rfl⟩, by simpa using hpre⟩
  · rintro ⟨⟨body, hbody, rfl⟩, rest, hrest⟩
    obtain rfl : cs = body ++ close :: rest := by simpa using hrest.symm
    rw [throughClose?_append hclose hbody]
    rfl

theorem IsEnclosed.head_eq {opening close c : Char} {w cs : List Char}
    (hw : IsEnclosed opening close w) (hpre : w <+: c :: cs) : c = opening := by
  obtain ⟨body, _, rfl⟩ := hw
  exact (List.cons_prefix_cons.1 hpre).1.symm

theorem IsEnclosed.ne_nil {opening close : Char} {w : List Char}
    (hw : IsEnclosed opening close w) : w ≠ [] := by
  obtain ⟨body, _, rfl⟩ := hw
  exact List.cons_ne_nil _ _

theorem literal?_eq_some_iff {cs w : List Char} :
    literal? cs = some w ↔ IsLiteral w ∧ w <+: cs := by
  cases cs with
  | nil =>
    simp only [literal?, reduceCtorEq, List.prefix_nil, false_iff, not_and]
    rintro (hw | hw)
    · exact hw.ne_nil
    · exact hw.ne_nil
  | cons c cs =>
    simp only [literal?, Option.ite_none_right_eq_some]
    constructor
    · rintro ⟨rfl | rfl, h⟩
      · obtain ⟨hw, hpre⟩ := (throughClose?_eq_some_iff (by decide)).1 h
        exact ⟨.inl hw, hpre⟩
      · obtain ⟨hw, hpre⟩ := (throughClose?_eq_some_iff (by decide)).1 h
        exact ⟨.inr hw, hpre⟩
    · rintro ⟨hw | hw, hpre⟩
      · obtain rfl := hw.head_eq hpre
        exact ⟨.inl rfl, (throughClose?_eq_some_iff (by decide)).2 ⟨hw, hpre⟩⟩
      · obtain rfl := hw.head_eq hpre
        exact ⟨.inr rfl, (throughClose?_eq_some_iff (by decide)).2 ⟨hw, hpre⟩⟩

theorem charClass?_eq_some_iff {cs w : List Char} :
    charClass? cs = some w ↔ IsCharClass w ∧ w <+: cs := by
  cases cs with
  | nil =>
    simp only [charClass?, reduceCtorEq, List.prefix_nil, false_iff, not_and]
    exact IsEnclosed.ne_nil
  | cons c cs =>
    simp only [charClass?, Option.ite_none_right_eq_some]
    constructor
    · rintro ⟨rfl, h⟩
      exact (throughClose?_eq_some_iff (by decide)).1 h
    · rintro ⟨hw, hpre⟩
      obtain rfl := IsEnclosed.head_eq hw hpre
      exact ⟨rfl, (throughClose?_eq_some_iff (by decide)).2 ⟨hw, hpre⟩⟩

theorem IsEnclosed.head?_tail_ne {w cs : List Char} (hw : IsEnclosed '/' '/' w)
    (hpre : w <+: '/' :: cs) : w ≠ ['/', '/'] ↔ cs.head? ≠ some '/' := by
  obtain ⟨body, hbody, rfl⟩ := hw
  obtain ⟨rest, rfl⟩ := (List.cons_prefix_cons.1 hpre).2
  cases body with
  | nil => simp
  | cons c body =>
    have hc : c ≠ '/' := by
      rintro rfl
      rw [isEnclosable.eq_def] at hbody
      simp at hbody
    simp [hc]

theorem pattern?_eq_some_iff {cs w : List Char} :
    pattern? cs = some w ↔ IsPattern w ∧ w <+: cs := by
  cases cs with
  | nil =>
    simp only [pattern?, reduceCtorEq, List.prefix_nil, false_iff, not_and]
    exact fun hw => hw.1.ne_nil
  | cons c cs =>
    simp only [pattern?, Option.ite_none_right_eq_some]
    constructor
    · rintro ⟨⟨rfl, hhead⟩, h⟩
      obtain ⟨hw, hpre⟩ := (throughClose?_eq_some_iff (by decide)).1 h
      exact ⟨⟨hw, (hw.head?_tail_ne hpre).2 hhead⟩, hpre⟩
    · rintro ⟨⟨hw, hne⟩, hpre⟩
      obtain rfl := hw.head_eq hpre
      exact ⟨⟨rfl, (hw.head?_tail_ne hpre).1 hne⟩,
        (throughClose?_eq_some_iff (by decide)).2 ⟨hw, hpre⟩⟩

end GrammarCompletion.Ebnf
