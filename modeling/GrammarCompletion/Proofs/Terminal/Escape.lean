import Mathlib.Data.List.Forall2
import GrammarCompletion.Proofs.Text.Hex
import GrammarCompletion.Terminal.Escape

/-! How characters are written in the body of a terminal: as they are or by an escape, which is a
letter, the character itself or its number in hexadecimal digits. The reader of escapes takes exactly
what some escape starts with, and a body is read exactly as the atoms that its pieces stand for. -/

namespace GrammarCompletion.Terminal

theorem exists_ok_of_map {α β : Type} {x : Except Defect α} {f : α → β} {b : β}
    (h : x.map f = .ok b) : ∃ a, x = .ok a ∧ f a = b := by
  cases x with
  | error defect => simp [Except.map] at h
  | ok a => exact ⟨a, rfl, Except.ok.inj h⟩

theorem map_pair_eq_ok_iff {α β : Type} {x : Except Defect α} {left rest : β} {a : α} :
    x.map (·, left) = .ok (a, rest) ↔ x = .ok a ∧ left = rest := by
  cases x with
  | error defect => simp [Except.map]
  | ok a => simp [Except.map]

namespace Escape

open Text

inductive Denotes : List Char → Char → Prop where
  | newline : Denotes ['n'] '\n'
  | tab : Denotes ['t'] '\t'
  | carriageReturn : Denotes ['r'] '\r'
  | null : Denotes ['0'] '\x00'
  | itself {c : Char} (h : c ∈ ['\\', '"', '\'', '/', ']', '[', '-', '^']) : Denotes [c] c
  | two {digits : List Char} {c : Char} (length : digits.length = 2)
      (value : IsNumeral digits c.toNat) : Denotes ('x' :: digits) c
  | four {digits : List Char} {c : Char} (length : digits.length = 4)
      (value : IsNumeral digits c.toNat) : Denotes ('u' :: digits) c
  | braced {digits : List Char} {c : Char} (atLeast : 1 ≤ digits.length)
      (atMost : digits.length ≤ 6) (value : IsNumeral digits c.toNat) :
      Denotes ('u' :: '{' :: (digits ++ ['}'])) c

theorem codePoint_eq_ok_iff {digits : List Char} {width : Nat} {c : Char} :
    codePoint digits width = .ok c ↔
      byteCount digits = width ∧ IsNumeral digits c.toNat := by
  constructor
  · intro h
    unfold codePoint at h
    split at h
    · simp at h
    · rename_i hwidth
      split at h
      · simp at h
      · split at h
        · rename_i d hd
          obtain ⟨n, hn, hscalar⟩ := Option.bind_eq_some_iff.1 hd
          obtain rfl := Except.ok.inj h
          rw [← scalar?_eq_some_iff.1 hscalar, ← hexValue?_eq_some_iff]
          exact ⟨Decidable.not_not.1 hwidth, hn⟩
        · simp at h
  · rintro ⟨rfl, hvalue⟩
    have hdigits : digits.all isHexDigit = true := List.all_eq_true.2 hvalue.isHexDigit
    have hscalar : (hexValue? digits).bind scalar? = some c := by
      rw [hexValue?_eq_some_iff.2 hvalue]
      exact scalar?_eq_some_iff.2 rfl
    unfold codePoint
    simp only [ne_eq, not_true_eq_false, if_false, hdigits, hscalar]

theorem fixed_eq_ok_iff {width : Nat} {cs rest : List Char} {c : Char} :
    fixed width cs = .ok (c, rest) ↔
      ∃ digits, cs = digits ++ rest ∧ digits.length = width ∧ IsNumeral digits c.toNat := by
  rw [fixed, map_pair_eq_ok_iff, codePoint_eq_ok_iff]
  constructor
  · rintro ⟨⟨hwidth, hvalue⟩, rfl⟩
    exact ⟨cs.take width, (List.take_append_drop _ _).symm, by rw [← hvalue.byteCount_eq, hwidth],
      hvalue⟩
  · rintro ⟨digits, rfl, rfl, hvalue⟩
    rw [List.take_left, List.drop_left]
    exact ⟨⟨hvalue.byteCount_eq, hvalue⟩, rfl⟩

theorem closeBraces_eq_ok_iff {digits cs rest : List Char} {c : Char} :
    closeBraces digits cs = .ok (c, rest) ↔
      (∃ d, cs = d :: rest) ∧ 1 ≤ digits.length ∧ digits.length ≤ 6 ∧ IsNumeral digits c.toNat := by
  cases cs with
  | nil => simp [closeBraces]
  | cons d cs =>
    rw [closeBraces]
    split
    · rename_i hbad
      simp only [reduceCtorEq, false_iff]
      rintro ⟨_, hpos, hmost, hvalue⟩
      rw [hvalue.byteCount_eq] at hbad
      rcases hbad with rfl | hbad
      · simp at hpos
      · omega
    · rename_i hgood
      rw [map_pair_eq_ok_iff, codePoint_eq_ok_iff]
      constructor
      · rintro ⟨⟨_, hvalue⟩, rfl⟩
        rw [hvalue.byteCount_eq, not_or] at hgood
        have hpos : 1 ≤ digits.length := List.length_pos_iff.2 hgood.1
        exact ⟨⟨d, rfl⟩, hpos, by omega, hvalue⟩
      · rintro ⟨⟨_, heq⟩, _, _, hvalue⟩
        exact ⟨⟨rfl, hvalue⟩, (List.cons.inj heq).2⟩

theorem braced_eq_ok_iff {cs rest : List Char} {c : Char} :
    braced cs = .ok (c, rest) ↔
      ∃ digits, cs = digits ++ '}' :: rest ∧ 1 ≤ digits.length ∧ digits.length ≤ 6 ∧
        IsNumeral digits c.toNat := by
  rw [braced, closeBraces_eq_ok_iff]
  constructor
  · rintro ⟨⟨d, hd⟩, hdigits⟩
    have hhead := List.head?_dropWhile_not (fun d => decide (d ≠ '}')) cs
    rw [hd] at hhead
    obtain rfl : d = '}' := by simpa using hhead
    exact ⟨cs.takeWhile (· ≠ '}'), by rw [← hd, List.takeWhile_append_dropWhile], hdigits⟩
  · rintro ⟨digits, rfl, hdigits⟩
    have hinside : ∀ d ∈ digits, decide (d ≠ '}') = true := by
      intro d hd
      have hdigit := hdigits.2.2.isHexDigit d hd
      rw [decide_eq_true_eq]
      rintro rfl
      exact absurd hdigit (by decide)
    rw [List.takeWhile_append_of_pos hinside, List.dropWhile_append_of_pos hinside]
    simpa using hdigits

theorem read_itself {c : Char} (h : c ∈ ['\\', '"', '\'', '/', ']', '[', '-', '^'])
    (rest : List Char) : read (c :: rest) = .ok (c, rest) := by
  simp only [List.mem_cons, List.not_mem_nil, or_false] at h
  rcases h with rfl | rfl | rfl | rfl | rfl | rfl | rfl | rfl
  all_goals rfl

theorem read_four {digits : List Char} {c : Char} (length : digits.length = 4)
    (value : IsNumeral digits c.toNat) (rest : List Char) :
    read ('u' :: (digits ++ rest)) = .ok (c, rest) := by
  have hfixed : fixed 4 (digits ++ rest) = .ok (c, rest) :=
    fixed_eq_ok_iff.2 ⟨digits, rfl, length, value⟩
  cases digits with
  | nil => simp at length
  | cons d digits =>
    -- A digit is no brace, so the digits are not taken for an escape in braces.
    have hd : d ≠ '{' := by
      rintro rfl
      exact absurd (value.isHexDigit '{' List.mem_cons_self) (by decide)
    rw [List.cons_append] at hfixed ⊢
    rw [← hfixed]
    simp [read, hd]

theorem read_eq_ok_iff {cs rest : List Char} {c : Char} :
    read cs = .ok (c, rest) ↔ ∃ spelling, cs = spelling ++ rest ∧ Denotes spelling c := by
  constructor
  · intro h
    have hshort : ∀ {d e : Char} {ds : List Char}, Denotes [d] e →
        (Except.ok (e, ds) : Except Defect (Char × List Char)) = .ok (c, rest) →
          ∃ spelling, d :: ds = spelling ++ rest ∧ Denotes spelling c := by
      intro d e ds hdenotes heq
      obtain ⟨rfl, rfl⟩ := Prod.mk.inj (Except.ok.inj heq)
      exact ⟨[d], rfl, hdenotes⟩
    unfold read at h
    split at h
    case h_1 => simp at h
    case h_2 => exact hshort .newline h
    case h_3 => exact hshort .tab h
    case h_4 => exact hshort .carriageReturn h
    case h_5 => exact hshort .null h
    case h_6 =>
      obtain ⟨digits, rfl, length, value⟩ := fixed_eq_ok_iff.1 h
      exact ⟨_, rfl, .two length value⟩
    case h_7 =>
      obtain ⟨digits, rfl, atLeast, atMost, value⟩ := braced_eq_ok_iff.1 h
      exact ⟨_, by simp, .braced atLeast atMost value⟩
    case h_8 =>
      obtain ⟨digits, rfl, length, value⟩ := fixed_eq_ok_iff.1 h
      exact ⟨_, rfl, .four length value⟩
    case h_9 =>
      split at h
      · rename_i hplain
        exact hshort (.itself (of_decide_eq_true hplain)) h
      · simp at h
  · rintro ⟨spelling, rfl, h⟩
    cases h with
    | newline => rfl
    | tab => rfl
    | carriageReturn => rfl
    | null => rfl
    | itself h => exact read_itself h rest
    | two length value => exact fixed_eq_ok_iff.2 ⟨_, rfl, length, value⟩
    | four length value => exact read_four length value rest
    | braced atLeast atMost value =>
      exact braced_eq_ok_iff.2 ⟨_, by simp, atLeast, atMost, value⟩

end Escape

/-- How an atom is written in a body in which `stop`, if given, may only stand escaped. -/
inductive Atom.WrittenAs (stop : Option Char) : Atom → List Char → Prop where
  | plain {c : Char} (slash : c ≠ '\\') (other : stop ≠ some c) : WrittenAs stop ⟨c, false⟩ [c]
  | escape {c : Char} {spelling : List Char} (h : Escape.Denotes spelling c) :
      WrittenAs stop ⟨c, true⟩ ('\\' :: spelling)

section Bodies

variable {stop : Option Char}

theorem atoms_plain {c : Char} (slash : c ≠ '\\') (other : stop ≠ some c) (cs : List Char) :
    atoms stop (c :: cs) = (atoms stop cs).map (⟨c, false⟩ :: ·) := by
  rw [atoms, if_neg slash, if_neg other]

theorem atoms_of_read {cs rest : List Char} {d : Char} (h : Escape.read cs = .ok (d, rest)) :
    atoms stop ('\\' :: cs) = (atoms stop rest).map (⟨d, true⟩ :: ·) := by
  rw [atoms, if_pos rfl]
  split
  · rename_i hfault
    simp [h] at hfault
  · rename_i hok
    obtain ⟨rfl, rfl⟩ := Prod.mk.inj (Except.ok.inj (h.symm.trans hok))
    rfl

theorem Atom.WrittenAs.atoms_append {atom : Atom} {piece : List Char}
    (h : atom.WrittenAs stop piece) (rest : List Char) :
    atoms stop (piece ++ rest) = (atoms stop rest).map (atom :: ·) := by
  cases h with
  | plain slash other => exact atoms_plain slash other rest
  | escape h => exact atoms_of_read (Escape.read_eq_ok_iff.2 ⟨_, rfl, h⟩)

/-- A body is read as the atoms of its pieces, and can be cut in pieces whenever it is read. -/
theorem atoms_eq_ok_iff {body : List Char} {found : List Atom} :
    atoms stop body = .ok found ↔ ∃ pieces : List (List Char), body = pieces.flatten ∧
      List.Forall₂ (Atom.WrittenAs stop) found pieces := by
  constructor
  · intro h
    fun_induction atoms stop body generalizing found with
    | case1 =>
      obtain rfl := Except.ok.inj h
      exact ⟨[], rfl, .nil⟩
    | case2 => simp at h
    | case3 cs c rest hread ih =>
      -- What the reader of escapes takes is the piece of this atom.
      obtain ⟨tail, htail, rfl⟩ := exists_ok_of_map h
      obtain ⟨pieces, rfl, hpieces⟩ := ih htail
      obtain ⟨spelling, rfl, hdenotes⟩ := Escape.read_eq_ok_iff.1 hread
      exact ⟨('\\' :: spelling) :: pieces, rfl, .cons (.escape hdenotes) hpieces⟩
    | case4 => simp at h
    | case5 c cs slash other ih =>
      obtain ⟨tail, htail, rfl⟩ := exists_ok_of_map h
      obtain ⟨pieces, rfl, hpieces⟩ := ih htail
      exact ⟨[c] :: pieces, rfl, .cons (.plain slash other) hpieces⟩
  · rintro ⟨pieces, rfl, hpieces⟩
    induction hpieces with
    | nil => rw [List.flatten_nil, atoms]
    | cons hpiece _ ih =>
      rw [List.flatten_cons, hpiece.atoms_append, ih]
      rfl

end Bodies

end GrammarCompletion.Terminal
