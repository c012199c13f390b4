import GrammarCompletion.Terminal.Defect
import GrammarCompletion.Text.Basic

/-! Escapes inside terminals. `Escape.read` reads what follows a backslash and `atoms` reads a
whole body, marking the characters that were escaped. An escape always takes a character, so the
body gets shorter with every atom. -/

namespace GrammarCompletion.Terminal

namespace Escape

def isPlain (c : Char) : Bool := c ∈ ['\\', '"', '\'', '/', ']', '[', '-', '^']

/-- The character that `digits` spell, where `width` is their due size in bytes. -/
def codePoint (digits : List Char) (width : Nat) : Except Defect Char :=
  if Text.byteCount digits ≠ width then .error .truncatedEscape
  else if ¬ digits.all Text.isHexDigit then .error (.nonHexDigits digits)
  else match (Text.hexValue? digits).bind Text.scalar? with
    | some c => .ok c
    | none => .error (.invalidCodePoint digits)

def fixed (width : Nat) (cs : List Char) : Except Defect (Char × List Char) :=
  (codePoint (cs.take width) width).map (·, cs.drop width)

/-- The code point spelt by `digits`, where what follows has to start with a closing brace. -/
def closeBraces (digits : List Char) : List Char → Except Defect (Char × List Char)
  | [] => .error .unterminatedBraces
  | _ :: rest =>
    if digits = [] ∨ 6 < Text.byteCount digits then .error .invalidBraces
    else (codePoint digits (Text.byteCount digits)).map (·, rest)

def braced (cs : List Char) : Except Defect (Char × List Char) :=
  closeBraces (cs.takeWhile (· ≠ '}')) (cs.dropWhile (· ≠ '}'))

def read : List Char → Except Defect (Char × List Char)
  | [] => .error .danglingBackslash
  | 'n' :: cs => .ok ('\n', cs)
  | 't' :: cs => .ok ('\t', cs)
  | 'r' :: cs => .ok ('\r', cs)
  | '0' :: cs => .ok ('\x00', cs)
  | 'x' :: cs => fixed 2 cs
  | 'u' :: '{' :: cs => braced cs
  | 'u' :: cs => fixed 4 cs
  | c :: cs => if isPlain c then .ok (c, cs) else .error (.unknownEscape c)

theorem length_le_of_fixed {width : Nat} {cs rest : List Char} {c : Char}
    (h : fixed width cs = .ok (c, rest)) : rest.length ≤ cs.length := by
  unfold fixed at h
  generalize codePoint (cs.take width) width = read at h
  cases read with
  | error e => simp [Except.map] at h
  | ok d =>
    simp only [Except.map, Except.ok.injEq, Prod.mk.injEq] at h
    simp [← h.2]

theorem length_lt_of_closeBraces {digits cs rest : List Char} {c : Char}
    (h : closeBraces digits cs = .ok (c, rest)) : rest.length < cs.length := by
  cases cs with
  | nil => simp [closeBraces] at h
  | cons d tail =>
    simp only [closeBraces] at h
    split at h
    · simp at h
    · generalize codePoint digits (Text.byteCount digits) = read at h
      cases read with
      | error e => simp [Except.map] at h
      | ok d =>
        simp only [Except.map, Except.ok.injEq, Prod.mk.injEq] at h
        simp [h.2]

theorem length_le_of_braced {cs rest : List Char} {c : Char}
    (h : braced cs = .ok (c, rest)) : rest.length ≤ cs.length :=
  Nat.le_trans (Nat.le_of_lt (length_lt_of_closeBraces h)) (List.dropWhile_suffix _).length_le

theorem length_lt_of_read {cs rest : List Char} {c : Char}
    (h : read cs = .ok (c, rest)) : rest.length < cs.length := by
  unfold read at h
  split at h
  case h_1 => simp at h
  case h_6 => exact Nat.lt_succ_of_le (length_le_of_fixed h)
  case h_7 => have := length_le_of_braced h; simp only [List.length_cons]; omega
  case h_8 => exact Nat.lt_succ_of_le (length_le_of_fixed h)
  case h_9 =>
    split at h
    · simp at h
      simp [← h.2]
    · simp at h
  all_goals simp at h; simp [← h.2]

end Escape

structure Atom where
  char : Char
  escaped : Bool
  deriving DecidableEq, Repr

/-- The atoms of a body in which `stop`, if given, may only stand escaped. -/
def atoms (stop : Option Char) : List Char → Except Defect (List Atom)
  | [] => .ok []
  | c :: cs =>
    if c = '\\' then
      match _read : Escape.read cs with
      | .error defect => .error defect
      | .ok (d, rest) => (atoms stop rest).map (⟨d, true⟩ :: ·)
    else if stop = some c then .error .unescapedQuote
    else (atoms stop cs).map (⟨c, false⟩ :: ·)
termination_by cs => cs.length
decreasing_by
  · exact Nat.lt_succ_of_lt (Escape.length_lt_of_read _read)
  · exact Nat.lt_succ_self _

end GrammarCompletion.Terminal
