import GrammarCompletion.Proofs.Ebnf.Lexeme
import GrammarCompletion.Proofs.Terminal.Escape
import GrammarCompletion.Terminal.Decoding

/-! Lexemes and what they spell. A recogniser takes a backslash with one character behind it, while
an escape may be longer. What an escape takes behind its first character are hexadecimal digits and
braces, and none of these hides or closes anything; so the two go in step up to the first escape
that cannot be read. -/

namespace GrammarCompletion.Terminal

open Ebnf

def Defect.inEscape : Defect → Bool
  | .unknownEscape _ | .truncatedEscape | .nonHexDigits _ | .invalidCodePoint _
  | .unterminatedBraces | .invalidBraces => true
  | _ => false

theorem error_of_map {α β : Type} {x : Except Defect α} {f : α → β} {defect : Defect}
    (h : x.map f = .error defect) : x = .error defect := by
  cases x with
  | error other => exact congrArg Except.error (Except.error.inj h)
  | ok a => simp [Except.map] at h

namespace Escape

def isInner (c : Char) : Bool := Text.isHexDigit c || c == '{' || c == '}'

theorem inEscape_of_codePoint {digits : List Char} {width : Nat} {defect : Defect}
    (h : codePoint digits width = .error defect) : defect.inEscape = true := by
  unfold codePoint at h
  split at h
  · rw [← Except.error.inj h]
    rfl
  · split at h
    · rw [← Except.error.inj h]
      rfl
    · split at h
      · simp at h
      · rw [← Except.error.inj h]
        rfl

theorem isInner_of_isNumeral {digits : List Char} {n : Nat} (h : Text.IsNumeral digits n) :
    ∀ d ∈ digits, isInner d = true := by
  intro d hd
  simp [isInner, h.isHexDigit d hd]

theorem exists_of_read {cs rest : List Char} {c : Char} (h : read cs = .ok (c, rest)) :
    ∃ d inner, cs = d :: (inner ++ rest) ∧ ∀ e ∈ inner, isInner e = true := by
  obtain ⟨spelling, rfl, hdenotes⟩ := read_eq_ok_iff.1 h
  cases hdenotes with
  | newline | tab | carriageReturn | null | itself => exact ⟨_, [], rfl, by simp⟩
  | two _ value => exact ⟨_, _, rfl, isInner_of_isNumeral value⟩
  | four _ value => exact ⟨_, _, rfl, isInner_of_isNumeral value⟩
  | @braced digits _ _ _ value =>
    refine ⟨_, '{' :: (digits ++ ['}']), rfl, ?_⟩
    rw [List.forall_mem_cons, List.forall_mem_append, List.forall_mem_singleton]
    exact ⟨by decide, isInner_of_isNumeral value, by decide⟩

theorem inEscape_of_read {d : Char} {cs : List Char} {defect : Defect}
    (h : read (d :: cs) = .error defect) : defect.inEscape = true := by
  have hfixed : ∀ {width : Nat} {ds : List Char}, fixed width ds = .error defect →
      defect.inEscape = true := fun hread => inEscape_of_codePoint (error_of_map hread)
  unfold read at h
  split at h
  case h_6 => exact hfixed h
  case h_7 =>
    unfold braced closeBraces at h
    split at h
    · rw [← Except.error.inj h]
      rfl
    · split at h
      · rw [← Except.error.inj h]
        rfl
      · exact inEscape_of_codePoint (error_of_map h)
  case h_8 => exact hfixed h
  case h_9 =>
    split at h
    · simp at h
    · rw [← Except.error.inj h]
      rfl
  all_goals simp_all

end Escape

section Bodies

variable {close : Char} {body : List Char}

theorem isEnclosable_plain {c : Char} (hc : c ≠ '\\') (cs : List Char) :
    isEnclosable close (c :: cs) = (decide (c ≠ close) && isEnclosable close cs) := by
  rw [isEnclosable.eq_def]
  simp only [hc, if_false]

theorem isEnclosable_append_of_isInner (hclose : Escape.isInner close = false) {inner : List Char}
    (hinner : ∀ e ∈ inner, Escape.isInner e = true) (rest : List Char) :
    isEnclosable close (inner ++ rest) = isEnclosable close rest := by
  induction inner with
  | nil => rfl
  | cons e inner ih =>
    have he := hinner e List.mem_cons_self
    have hne : e ≠ close := by
      rintro rfl
      simp [hclose] at he
    have hslash : e ≠ '\\' := by
      rintro rfl
      simp [Escape.isInner, Text.isHexDigit, Text.hexDigit?] at he
    rw [List.cons_append, isEnclosable_cons hne hslash]
    exact ih fun d hd => hinner d (List.mem_cons_of_mem _ hd)

theorem isEnclosable_escape {cs rest : List Char} {c : Char} (hclose : Escape.isInner close = false)
    (h : Escape.read cs = .ok (c, rest)) :
    isEnclosable close ('\\' :: cs) = isEnclosable close rest := by
  obtain ⟨d, inner, rfl, hinner⟩ := Escape.exists_of_read h
  have hstep : isEnclosable close ('\\' :: d :: (inner ++ rest)) =
      isEnclosable close (inner ++ rest) := by
    rw [isEnclosable, if_pos rfl]
  rw [hstep, isEnclosable_append_of_isInner hclose hinner]

theorem inEscape_of_atoms {stop : Option Char} (hstop : ∀ c ∈ stop, c = close)
    (hclose : Escape.isInner close = false) (hbody : isEnclosable close body = true)
    {defect : Defect} (h : atoms stop body = .error defect) : defect.inEscape = true := by
  fun_induction atoms stop body with
  | case1 => simp at h
  | case2 cs found hread =>
    -- A backslash in front of the close comes with the character it hides.
    cases cs with
    | nil => simp [isEnclosable] at hbody
    | cons d cs =>
      rw [Except.error.inj h] at hread
      exact Escape.inEscape_of_read hread
  | case3 cs c rest hread ih =>
    rw [isEnclosable_escape hclose hread] at hbody
    exact ih hbody (error_of_map h)
  | case4 c cs hslash hstopped =>
    have hc : c = close := hstop c hstopped
    rw [isEnclosable_plain hslash] at hbody
    simp [hc] at hbody
  | case5 c cs hslash _ ih =>
    rw [isEnclosable_plain hslash, Bool.and_eq_true] at hbody
    exact ih hbody.2 (error_of_map h)

theorem isEnclosable_flatten {stop : Option Char} (hclose : Escape.isInner close = false)
    {found : List Atom} {pieces : List (List Char)}
    (h : List.Forall₂ (Atom.WrittenAs stop) found pieces) :
    isEnclosable close pieces.flatten = true ↔ ⟨close, false⟩ ∉ found := by
  induction h with
  | nil => simp [isEnclosable]
  | cons hpiece _ ih =>
    rw [List.flatten_cons, List.mem_cons, not_or]
    cases hpiece with
    | @plain c slash _ =>
      rw [List.singleton_append, isEnclosable_plain slash, Bool.and_eq_true, decide_eq_true_eq, ih]
      exact and_congr_left' (by simp [eq_comm])
    | escape hdenotes =>
      rw [List.cons_append,
        isEnclosable_escape hclose (Escape.read_eq_ok_iff.2 ⟨_, rfl, hdenotes⟩), ih]
      simp

theorem isEnclosable_of_atoms (hclose : Escape.isInner close = false) {found : List Atom}
    (h : atoms (some close) body = .ok found) : isEnclosable close body = true := by
  obtain ⟨pieces, rfl, hpieces⟩ := atoms_eq_ok_iff.1 h
  refine (isEnclosable_flatten hclose hpieces).2 ?_
  clear h
  induction hpieces with
  | nil => simp
  | cons hpiece _ ih =>
    rw [List.mem_cons, not_or]
    refine ⟨?_, ih⟩
    rintro rfl
    cases hpiece with
    | plain _ other => exact other rfl

end Bodies

section Lexemes

theorem unquote_of_isEnclosed {quote : Char} {body : List Char} {s : String}
    (hquote : quote = '"' ∨ quote = '\'') (hs : s.toList = quote :: (body ++ [quote])) :
    unquote s = (atoms (some quote) body).map fun found => String.ofList (found.map Atom.char) := by
  unfold unquote
  rw [hs]
  simp only [hquote, not_true_eq_false, if_false, List.getLast?_concat, ne_eq,
    List.dropLast_concat]
  cases atoms (some quote) body <;> rfl

theorem isInner_quote {quote : Char} (hquote : quote = '"' ∨ quote = '\'') :
    Escape.isInner quote = false := by
  rcases hquote with rfl | rfl
  · decide
  · decide

theorem exists_of_isLiteral {cs : List Char} (h : IsLiteral cs) :
    ∃ quote body, (quote = '"' ∨ quote = '\'') ∧ isEnclosable quote body = true ∧
      cs = quote :: (body ++ [quote]) := by
  rcases h with ⟨body, hbody, rfl⟩ | ⟨body, hbody, rfl⟩
  · exact ⟨'"', body, .inl rfl, hbody, rfl⟩
  · exact ⟨'\'', body, .inr rfl, hbody, rfl⟩

theorem isLiteral_of_isEnclosable {quote : Char} {body : List Char}
    (hquote : quote = '"' ∨ quote = '\'') (hbody : isEnclosable quote body = true) :
    IsLiteral (quote :: (body ++ [quote])) := by
  rcases hquote with rfl | rfl
  · exact .inl ⟨body, hbody, rfl⟩
  · exact .inr ⟨body, hbody, rfl⟩

theorem inEscape_of_unquote {s : String} (h : IsLiteral s.toList) {defect : Defect}
    (hdefect : unquote s = .error defect) : defect.inEscape = true := by
  obtain ⟨quote, body, hquote, hbody, hs⟩ := exists_of_isLiteral h
  rw [unquote_of_isEnclosed hquote hs] at hdefect
  have hstop : ∀ c ∈ some quote, c = quote := fun c hc => (Option.some.inj hc).symm
  exact inEscape_of_atoms hstop (isInner_quote hquote) hbody (error_of_map hdefect)

theorem exists_body_of_unquote {s text : String} (h : unquote s = .ok text) :
    ∃ quote body, (quote = '"' ∨ quote = '\'') ∧ s.toList = quote :: (body ++ [quote]) := by
  unfold unquote at h
  split at h
  · simp at h
  · rename_i quote cs hs
    split at h
    · simp at h
    · rename_i hquote
      split at h
      · simp at h
      · rename_i hlast
        obtain ⟨body, rfl⟩ := List.getLast?_eq_some_iff.1 (Decidable.not_not.1 hlast)
        exact ⟨quote, body, Decidable.not_not.1 hquote, hs⟩

theorem isLiteral_of_unquote {s text : String} (h : unquote s = .ok text) :
    IsLiteral s.toList := by
  obtain ⟨quote, body, hquote, hs⟩ := exists_body_of_unquote h
  rw [unquote_of_isEnclosed hquote hs] at h
  obtain ⟨found, hfound, _⟩ := exists_ok_of_map h
  rw [hs]
  exact isLiteral_of_isEnclosable hquote (isEnclosable_of_atoms (isInner_quote hquote) hfound)

end Lexemes

section Classes

theorem addSegment_eq_error {members : List Char} {segment : Segment} {obstacle : Obstacle}
    (h : addSegment members segment = .error obstacle) :
    obstacle = .notEnumerable .tooManyMembers ∨
      ∃ low high, obstacle = .malformed (.reversedRange low high) := by
  cases segment with
  | single c => simp [addSegment] at h
  | range low high =>
    simp only [addSegment] at h
    split at h
    · exact .inr ⟨low, high, (Except.error.inj h).symm⟩
    · split at h
      · exact .inl (Except.error.inj h).symm
      · simp at h

theorem addSegments_eq_error {segments : List Segment} {members : List Char} {obstacle : Obstacle}
    (h : segments.foldlM addSegment members = .error obstacle) :
    obstacle = .notEnumerable .tooManyMembers ∨
      ∃ low high, obstacle = .malformed (.reversedRange low high) := by
  induction segments generalizing members with
  | nil => simp [pure, Except.pure] at h
  | cons segment segments ih =>
    rw [List.foldlM_cons] at h
    cases hstep : addSegment members segment with
    | error found =>
      rw [hstep] at h
      have hfound : found = obstacle := Except.error.inj h
      exact addSegment_eq_error (hfound ▸ hstep)
    | ok next =>
      rw [hstep] at h
      exact ih h

theorem classBody?_of_isCharClass {cs : List Char} (h : IsCharClass cs) :
    ∃ body, classBody? cs = some body ∧ isEnclosable ']' body = true := by
  obtain ⟨body, hbody, rfl⟩ := h
  refine ⟨body, ?_, hbody⟩
  simp [classBody?]

theorem members_eq_error {found : List Atom} {obstacle : Obstacle}
    (h : (do
      let members ← (segments found).foldlM addSegment []
      if members = [] then throw (.malformed .emptyClass)
      else if classLimit < members.length then throw (.notEnumerable .tooManyMembers)
      else return members) = Except.error obstacle) :
    obstacle = .notEnumerable .tooManyMembers ∨ obstacle = .malformed .emptyClass ∨
      ∃ low high, obstacle = .malformed (.reversedRange low high) := by
  cases hfold : (segments found).foldlM addSegment [] with
  | error refused =>
    rw [hfold] at h
    have hrefused : refused = obstacle := Except.error.inj h
    rw [← hrefused]
    exact (addSegments_eq_error hfold).imp_right .inr
  | ok members =>
    rw [hfold] at h
    change (if members = [] then throw _ else _) = _ at h
    split at h
    · exact .inr (.inl (Except.error.inj h).symm)
    · split at h
      · exact .inl (Except.error.inj h).symm
      · simp [pure, Except.pure] at h

theorem classMembers_eq_error {s : String} (h : IsCharClass s.toList) {defect : Defect}
    (hdefect : classMembers s = .error (.malformed defect)) :
    defect.inEscape = true ∨ defect = .emptyClass ∨
      ∃ low high, defect = .reversedRange low high := by
  obtain ⟨body, hclass, hbody⟩ := classBody?_of_isCharClass h
  unfold classMembers at hdefect
  rw [hclass] at hdefect
  simp only at hdefect
  split at hdefect
  · simp at hdefect
  · cases hatoms : atoms none body with
    | error found =>
      rw [hatoms] at hdefect
      have hfound : found = defect := by simpa using hdefect
      exact .inl (hfound ▸ inEscape_of_atoms (by simp) (by decide) hbody hatoms)
    | ok found =>
      rw [hatoms] at hdefect
      rcases members_eq_error hdefect with hmany | hempty | ⟨low, high, hrange⟩
      · simp at hmany
      · exact .inr (.inl (Obstacle.malformed.inj hempty))
      · exact .inr (.inr ⟨low, high, Obstacle.malformed.inj hrange⟩)

theorem classMembers_ne_error {s : String} (h : IsCharClass s.toList) {defect : Defect}
    (hescape : defect.inEscape = false) (hempty : defect ≠ .emptyClass)
    (hrange : ∀ low high, defect ≠ .reversedRange low high) :
    classMembers s ≠ .error (.malformed defect) := by
  intro hdefect
  rcases classMembers_eq_error h hdefect with hkind | hkind | ⟨low, high, hkind⟩
  · rw [hescape] at hkind
    exact Bool.false_ne_true hkind
  · exact hempty hkind
  · exact hrange low high hkind

end Classes

/-- A text that is one literal as a whole decodes, unless one of its escapes cannot be read; a
text that is one class as a whole is never refused for its end; and whatever decodes is one literal
as a whole. -/
theorem lexemes_decode (s : String) :
    (literal? s.toList = some s.toList →
      (∃ text, unquote s = .ok text) ∨
        ∃ defect, unquote s = .error defect ∧ defect.inEscape = true) ∧
    (charClass? s.toList = some s.toList →
      classMembers s ≠ .error (.malformed .unterminatedClass) ∧
        classMembers s ≠ .error (.malformed .danglingBackslash)) ∧
    ((∃ text, unquote s = .ok text) → literal? s.toList = some s.toList) := by
  refine ⟨?_, ?_, ?_⟩
  · intro h
    have hliteral := (literal?_eq_some_iff.1 h).1
    cases hread : unquote s with
    | ok text => exact .inl ⟨text, rfl⟩
    | error defect => exact .inr ⟨defect, rfl, inEscape_of_unquote hliteral hread⟩
  · intro h
    have hclass := (charClass?_eq_some_iff.1 h).1
    constructor
    · exact classMembers_ne_error hclass rfl (by simp) (by simp)
    · exact classMembers_ne_error hclass rfl (by simp) (by simp)
  · rintro ⟨text, htext⟩
    exact literal?_eq_some_iff.2 ⟨isLiteral_of_unquote htext, List.prefix_refl _⟩

theorem lexemes_decode_escapes :
    literal? "'\\x\\''".toList = some "'\\x\\''".toList ∧
      ((∃ text, unquote "'\\x\\''" = .ok text) ∨
        ∃ defect, unquote "'\\x\\''" = .error defect ∧ defect.inEscape = true) ∧
      charClass? "[\\]\\\\]".toList = some "[\\]\\\\]".toList ∧
        classMembers "[\\]\\\\]" ≠ .error (.malformed .unterminatedClass) ∧
          unquote "\"\\u\x7b41\x7d\"" = .ok "A" ∧
            literal? "\"\\u\x7b41\x7d\"".toList = some "\"\\u\x7b41\x7d\"".toList := by
  have hliteral : literal? "'\\x\\''".toList = some "'\\x\\''".toList := by cbv
  have hclass : charClass? "[\\]\\\\]".toList = some "[\\]\\\\]".toList := by cbv
  have htext : unquote "\"\\u\x7b41\x7d\"" = .ok "A" := by
    have hread : Escape.read ['u', '{', '4', '1', '}'] = .ok ('A', []) := by rfl
    change (atoms (some '"') ('\\' :: ['u', '{', '4', '1', '}']) >>= _) = _
    rw [atoms_of_read hread, atoms]
    rfl
  exact ⟨hliteral, (lexemes_decode _).1 hliteral, hclass, ((lexemes_decode _).2.1 hclass).1, htext,
    (lexemes_decode _).2.2 ⟨"A", htext⟩⟩

end GrammarCompletion.Terminal
