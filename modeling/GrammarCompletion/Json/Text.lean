import GrammarCompletion.Json.Fault
import GrammarCompletion.Text.Basic

/-! Strings in JSON text. Readers start behind the opening quote and give what is left behind the
closing one. Skipping a string checks its escapes, but pairs no surrogates. The escapes follow the JSON
library, which is not part of this repository. -/

namespace GrammarCompletion.Json

def hexQuad (cs : List Char) : Except Fault (Nat × List Char) :=
  let digits := cs.take 4
  if Text.byteCount digits < 4 then .error .endInString
  else match Text.hexValue? digits with
    | none => .error .invalidEscape
    | some n => .ok (n, cs.drop 4)

def isHighSurrogate (n : Nat) : Bool := 0xD800 ≤ n && n ≤ 0xDBFF

def isLowSurrogate (n : Nat) : Bool := 0xDC00 ≤ n && n ≤ 0xDFFF

/-- The character of a high surrogate and the escape that has to follow it. -/
def secondSurrogate (high : Nat) : List Char → Except Fault (Char × List Char)
  | [] => .error .endInString
  | '\\' :: [] => .error .endInString
  | '\\' :: 'u' :: cs => do
    let (low, rest) ← hexQuad cs
    if isLowSurrogate low then
      return (Char.ofNat ((high - 0xD800) * 0x400 + (low - 0xDC00) + 0x10000), rest)
    else throw .loneSurrogate
  | _ => .error .halfSurrogatePair

def unicodeEscape (cs : List Char) : Except Fault (Char × List Char) := do
  let (n, rest) ← hexQuad cs
  if isLowSurrogate n then throw .loneSurrogate
  else if isHighSurrogate n then secondSurrogate n rest
  else return (Char.ofNat n, rest)

def plainEscape? : Char → Option Char
  | '"' => some '"'
  | '\\' => some '\\'
  | '/' => some '/'
  | 'b' => some '\x08'
  | 'f' => some '\x0c'
  | 'n' => some '\n'
  | 'r' => some '\r'
  | 't' => some '\t'
  | _ => none

def escape : List Char → Except Fault (Char × List Char)
  | [] => .error .endInString
  | 'u' :: cs => unicodeEscape cs
  | c :: cs => match plainEscape? c with
    | some d => .ok (d, cs)
    | none => .error .invalidEscape

def skipEscape : List Char → Except Fault (List Char)
  | [] => .error .endInString
  | 'u' :: cs => (hexQuad cs).map Prod.snd
  | c :: cs => if (plainEscape? c).isSome then .ok cs else .error .invalidEscape

theorem length_le_of_hexQuad {cs rest : List Char} {n : Nat} (h : hexQuad cs = .ok (n, rest)) :
    rest.length ≤ cs.length := by
  unfold hexQuad at h
  dsimp only at h
  split at h
  · simp at h
  · split at h
    · simp at h
    · simp only [Except.ok.injEq, Prod.mk.injEq] at h
      simp [← h.2]

theorem length_le_of_secondSurrogate {high : Nat} {cs rest : List Char} {c : Char}
    (h : secondSurrogate high cs = .ok (c, rest)) : rest.length ≤ cs.length := by
  unfold secondSurrogate at h
  split at h
  · simp at h
  · simp at h
  · next tail =>
    cases hq : hexQuad tail with
    | error e => simp [hq, bind, Except.bind] at h
    | ok p =>
      obtain ⟨low, left⟩ := p
      have hle := length_le_of_hexQuad hq
      simp only [hq, bind, Except.bind] at h
      split at h
      · simp only [pure, Except.pure, Except.ok.injEq, Prod.mk.injEq] at h
        simp only [← h.2, List.length_cons]
        omega
      · simp [throw, throwThe, MonadExceptOf.throw] at h
  · simp at h

theorem length_le_of_unicodeEscape {cs rest : List Char} {c : Char}
    (h : unicodeEscape cs = .ok (c, rest)) : rest.length ≤ cs.length := by
  unfold unicodeEscape at h
  cases hq : hexQuad cs with
  | error e => simp [hq, bind, Except.bind] at h
  | ok p =>
    obtain ⟨n, left⟩ := p
    have hle := length_le_of_hexQuad hq
    simp only [hq, bind, Except.bind] at h
    split at h
    · simp [throw, throwThe, MonadExceptOf.throw] at h
    · split at h
      · exact Nat.le_trans (length_le_of_secondSurrogate h) hle
      · simp only [pure, Except.pure, Except.ok.injEq, Prod.mk.injEq] at h
        exact h.2 ▸ hle

theorem length_lt_of_escape {cs rest : List Char} {c : Char} (h : escape cs = .ok (c, rest)) :
    rest.length < cs.length := by
  unfold escape at h
  split at h
  · simp at h
  · exact Nat.lt_succ_of_le (length_le_of_unicodeEscape h)
  · split at h
    · simp only [Except.ok.injEq, Prod.mk.injEq] at h
      simp [← h.2]
    · simp at h

theorem length_lt_of_skipEscape {cs rest : List Char} (h : skipEscape cs = .ok rest) :
    rest.length < cs.length := by
  unfold skipEscape at h
  split at h
  · simp at h
  · next tail =>
    cases hq : hexQuad tail with
    | error e => simp [hq, Except.map] at h
    | ok p =>
      simp only [hq, Except.map, Except.ok.injEq] at h
      have hle := length_le_of_hexQuad (n := p.1) hq
      simp only [← h, List.length_cons]
      omega
  · split at h
    · simp only [Except.ok.injEq] at h
      simp [← h]
    · simp at h

def stringBody : List Char → Except Fault (List Char × List Char)
  | [] => .error .endInString
  | c :: cs =>
    if c = '"' then .ok ([], cs)
    else if c = '\\' then
      match _read : escape cs with
      | .error fault => .error fault
      | .ok (d, rest) => (stringBody rest).map fun (text, left) => (d :: text, left)
    else if c < ' ' then .error .controlCharacter
    else (stringBody cs).map fun (text, left) => (c :: text, left)
termination_by cs => cs.length
decreasing_by
  · exact Nat.lt_succ_of_lt (length_lt_of_escape _read)
  · exact Nat.lt_succ_self _

def skipString : List Char → Except Fault (List Char)
  | [] => .error .endInString
  | c :: cs =>
    if c = '"' then .ok cs
    else if c = '\\' then
      match _read : skipEscape cs with
      | .error fault => .error fault
      | .ok rest => skipString rest
    else if c < ' ' then .error .controlCharacter
    else skipString cs
termination_by cs => cs.length
decreasing_by
  · exact Nat.lt_succ_of_lt (length_lt_of_skipEscape _read)
  · exact Nat.lt_succ_self _

end GrammarCompletion.Json
