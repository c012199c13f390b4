import GrammarCompletion.Json.Text
import GrammarCompletion.Json.Value

/-! How strings stand between their quotes in JSON text. A character has several spellings, with or
without an escape, and the reader understands each of them. A string that is skipped may also hold
half a surrogate pair, which spells no character. What the writer gives for a string spells it. -/

namespace GrammarCompletion.Text

theorem length_le_byteCount (cs : List Char) : cs.length ≤ byteCount cs := by
  induction cs with
  | nil => exact Nat.le_refl 0
  | cons c cs ih =>
    have hpos := c.utf8Size_pos
    rw [List.length_cons, byteCount_cons]
    omega

end GrammarCompletion.Text

namespace GrammarCompletion.Json

structure IsQuad (n : Nat) (digits : List Char) : Prop where
  length_eq : digits.length = 4
  value : Text.hexValue? digits = some n

inductive IsBody : List Char → Prop where
  | nil : IsBody []
  | plain {c : Char} {body : List Char} (quote : c ≠ '"') (slash : c ≠ '\\') (control : ¬ c < ' ')
      (rest : IsBody body) : IsBody (c :: body)
  | letter {c d : Char} {body : List Char} (h : plainEscape? c = some d) (rest : IsBody body) :
      IsBody ('\\' :: c :: body)
  | hex {n : Nat} {digits body : List Char} (h : IsQuad n digits) (rest : IsBody body) :
      IsBody ('\\' :: 'u' :: (digits ++ body))

/-- The second list spells the characters of the first: each as it is, by the letter of an escape, or
by its number in hexadecimal digits, above U+FFFF as a surrogate pair. -/
inductive Spells : List Char → List Char → Prop where
  | nil : Spells [] []
  | plain {c : Char} {text body : List Char} (quote : c ≠ '"') (slash : c ≠ '\\')
      (control : ¬ c < ' ') (rest : Spells text body) : Spells (c :: text) (c :: body)
  | letter {c d : Char} {text body : List Char} (h : plainEscape? c = some d)
      (rest : Spells text body) : Spells (d :: text) ('\\' :: c :: body)
  | hex {c : Char} {digits text body : List Char} (h : IsQuad c.toNat digits)
      (rest : Spells text body) : Spells (c :: text) ('\\' :: 'u' :: (digits ++ body))
  | pair {c : Char} {high low text body : List Char} (above : 0x10000 ≤ c.toNat)
      (hhigh : IsQuad (0xD800 + (c.toNat - 0x10000) / 0x400) high)
      (hlow : IsQuad (0xDC00 + (c.toNat - 0x10000) % 0x400) low) (rest : Spells text body) :
      Spells (c :: text) ('\\' :: 'u' :: (high ++ '\\' :: 'u' :: (low ++ body)))

theorem Spells.isBody {text body : List Char} (h : Spells text body) : IsBody body := by
  induction h with
  | nil => exact .nil
  | plain quote slash control _ ih => exact .plain quote slash control ih
  | letter h _ ih => exact .letter h ih
  | hex h _ ih => exact .hex h ih
  | pair _ hhigh hlow _ ih => exact .hex hhigh (.hex hlow ih)

section Escapes

theorem hexQuad_append {n : Nat} {digits : List Char} (h : IsQuad n digits) (rest : List Char) :
    hexQuad (digits ++ rest) = .ok (n, rest) := by
  have htake : (digits ++ rest).take 4 = digits := by rw [← h.length_eq, List.take_left]
  have hdrop : (digits ++ rest).drop 4 = rest := by rw [← h.length_eq, List.drop_left]
  have hlong : ¬ Text.byteCount digits < 4 := by
    have hle := Text.length_le_byteCount digits
    rw [h.length_eq] at hle
    exact Nat.not_lt.2 hle
  unfold hexQuad
  simp only [htake, hdrop, if_neg hlong, h.value]

theorem toNat_not_surrogate (c : Char) :
    c.toNat < 0xD800 ∨ 0xDFFF < c.toNat ∧ c.toNat < 0x110000 := by
  have h := c.valid
  simp only [UInt32.isValidChar, Nat.isValidChar] at h
  exact h

theorem isHighSurrogate_iff {n : Nat} : isHighSurrogate n = true ↔ 0xD800 ≤ n ∧ n ≤ 0xDBFF := by
  simp only [isHighSurrogate, Bool.and_eq_true, decide_eq_true_eq]

theorem isLowSurrogate_iff {n : Nat} : isLowSurrogate n = true ↔ 0xDC00 ≤ n ∧ n ≤ 0xDFFF := by
  simp only [isLowSurrogate, Bool.and_eq_true, decide_eq_true_eq]

theorem escape_hex {c : Char} {digits : List Char} (h : IsQuad c.toNat digits) (rest : List Char) :
    escape ('u' :: (digits ++ rest)) = .ok (c, rest) := by
  have hvalid := toNat_not_surrogate c
  have hlow : ¬ isLowSurrogate c.toNat = true := by
    rw [isLowSurrogate_iff]
    omega
  have hhigh : ¬ isHighSurrogate c.toNat = true := by
    rw [isHighSurrogate_iff]
    omega
  rw [escape, unicodeEscape, hexQuad_append h]
  simp only [bind, Except.bind, pure, Except.pure, if_neg hlow, if_neg hhigh, Char.ofNat_toNat]

theorem ofNat_halves {c : Char} {high low : Nat} (above : 0x10000 ≤ c.toNat)
    (hhigh : high = 0xD800 + (c.toNat - 0x10000) / 0x400)
    (hlow : low = 0xDC00 + (c.toNat - 0x10000) % 0x400) :
    Char.ofNat ((high - 0xD800) * 0x400 + (low - 0xDC00) + 0x10000) = c := by
  have hnat : (high - 0xD800) * 0x400 + (low - 0xDC00) + 0x10000 = c.toNat := by omega
  rw [hnat, Char.ofNat_toNat]

theorem escape_of_halves {high low : List Char} {highNat lowNat : Nat}
    (hhigh : IsQuad highNat high) (hlow : IsQuad lowNat low)
    (hfirst : isHighSurrogate highNat = true) (hsecond : isLowSurrogate lowNat = true)
    (rest : List Char) :
    escape ('u' :: (high ++ '\\' :: 'u' :: (low ++ rest))) =
      .ok (Char.ofNat ((highNat - 0xD800) * 0x400 + (lowNat - 0xDC00) + 0x10000), rest) := by
  have hno : ¬ isLowSurrogate highNat = true := by
    rw [isHighSurrogate_iff] at hfirst
    rw [isLowSurrogate_iff]
    omega
  rw [escape, unicodeEscape, hexQuad_append hhigh]
  simp only [bind, Except.bind, pure, Except.pure, if_neg hno, if_pos hfirst, secondSurrogate,
    hexQuad_append hlow, if_pos hsecond]

theorem escape_pair {c : Char} {high low : List Char} (above : 0x10000 ≤ c.toNat)
    (hhigh : IsQuad (0xD800 + (c.toNat - 0x10000) / 0x400) high)
    (hlow : IsQuad (0xDC00 + (c.toNat - 0x10000) % 0x400) low) (rest : List Char) :
    escape ('u' :: (high ++ '\\' :: 'u' :: (low ++ rest))) = .ok (c, rest) := by
  have hbound : c.toNat < 0x110000 := by
    rcases toNat_not_surrogate c with hc | hc <;> omega
  have hfirst := isHighSurrogate_iff (n := 0xD800 + (c.toNat - 0x10000) / 0x400).2 (by omega)
  have hsecond := isLowSurrogate_iff (n := 0xDC00 + (c.toNat - 0x10000) % 0x400).2 (by omega)
  rw [escape_of_halves hhigh hlow hfirst hsecond, ofNat_halves above rfl rfl]

theorem escape_letter {c d : Char} (h : plainEscape? c = some d) (rest : List Char) :
    escape (c :: rest) = .ok (d, rest) := by
  unfold escape
  split
  · simp_all
  · rename_i heq
    obtain ⟨rfl, rfl⟩ := List.cons.inj heq
    simp [plainEscape?] at h
  · rename_i heq
    obtain ⟨rfl, rfl⟩ := List.cons.inj heq
    rw [h]

theorem skipEscape_letter {c d : Char} (h : plainEscape? c = some d) (rest : List Char) :
    skipEscape (c :: rest) = .ok rest := by
  unfold skipEscape
  split
  · simp_all
  · rename_i heq
    obtain ⟨rfl, rfl⟩ := List.cons.inj heq
    simp [plainEscape?] at h
  · rename_i heq
    obtain ⟨rfl, rfl⟩ := List.cons.inj heq
    rw [h]
    rfl

theorem skipEscape_hex {n : Nat} {digits : List Char} (h : IsQuad n digits) (rest : List Char) :
    skipEscape ('u' :: (digits ++ rest)) = .ok rest := by
  rw [skipEscape, hexQuad_append h]
  rfl

end Escapes

section Bodies

theorem stringBody_quote (rest : List Char) : stringBody ('"' :: rest) = .ok ([], rest) := by
  rw [stringBody, if_pos rfl]

theorem stringBody_plain {c : Char} (quote : c ≠ '"') (slash : c ≠ '\\') (control : ¬ c < ' ')
    (cs : List Char) :
    stringBody (c :: cs) = (stringBody cs).map fun (text, left) => (c :: text, left) := by
  rw [stringBody, if_neg quote, if_neg slash, if_neg control]

theorem stringBody_escape {d : Char} {cs rest : List Char} (h : escape cs = .ok (d, rest)) :
    stringBody ('\\' :: cs) = (stringBody rest).map fun (text, left) => (d :: text, left) := by
  rw [stringBody, if_neg (by decide), if_pos rfl]
  split
  · rename_i hread
    simp [h] at hread
  · rename_i hread
    obtain ⟨rfl, rfl⟩ := Prod.mk.inj (Except.ok.inj (h.symm.trans hread))
    rfl

theorem stringBody_of_spells {text body : List Char} (h : Spells text body) (rest : List Char) :
    stringBody (body ++ '"' :: rest) = .ok (text, rest) := by
  induction h with
  | nil => exact stringBody_quote rest
  | plain quote slash control _ ih =>
    rw [List.cons_append, stringBody_plain quote slash control, ih]
    rfl
  | letter h _ ih =>
    rw [List.cons_append, List.cons_append, stringBody_escape (escape_letter h _), ih]
    rfl
  | hex h _ ih =>
    rw [List.cons_append, List.cons_append, List.append_assoc,
      stringBody_escape (escape_hex h _), ih]
    rfl
  | pair above hhigh hlow _ ih =>
    rw [List.cons_append, List.cons_append, List.append_assoc, List.cons_append, List.cons_append,
      List.append_assoc, stringBody_escape (escape_pair above hhigh hlow _), ih]
    rfl

theorem skipString_escape {cs rest : List Char} (h : skipEscape cs = .ok rest) :
    skipString ('\\' :: cs) = skipString rest := by
  rw [skipString, if_neg (by decide), if_pos rfl]
  split
  · rename_i hread
    simp [h] at hread
  · rename_i hread
    rw [Except.ok.inj (h.symm.trans hread)]

theorem skipString_of_isBody {body : List Char} (h : IsBody body) (rest : List Char) :
    skipString (body ++ '"' :: rest) = .ok rest := by
  induction h with
  | nil => rw [List.nil_append, skipString, if_pos rfl]
  | plain quote slash control _ ih =>
    rw [List.cons_append, skipString, if_neg quote, if_neg slash, if_neg control, ih]
  | letter h _ ih =>
    rw [List.cons_append, List.cons_append, skipString_escape (skipEscape_letter h _), ih]
  | hex h _ ih =>
    rw [List.cons_append, List.cons_append, List.append_assoc,
      skipString_escape (skipEscape_hex h _), ih]

end Bodies

section Writing

theorem isQuad_hexEscape {c : Char} (h : c < ' ') :
    ∃ digits, Value.hexEscape c = '\\' :: 'u' :: digits ∧ IsQuad c.toNat digits := by
  have hall : ∀ n < 32, (List.replicate (4 - (Text.toHex n).length) '0' ++ Text.toHex n).length = 4 ∧
      Text.hexValue? (List.replicate (4 - (Text.toHex n).length) '0' ++ Text.toHex n) = some n := by
    decide
  obtain ⟨hlength, hvalue⟩ := hall c.toNat h
  exact ⟨_, rfl, hlength, hvalue⟩

theorem spells_writeChar (c : Char) {text body : List Char} (h : Spells text body) :
    Spells (c :: text) (Value.writeChar c ++ body) := by
  unfold Value.writeChar
  split
  any_goals exact .letter (by rfl) h
  rename_i hquote hslash _ _ _ _ _
  split
  · rename_i hcontrol
    obtain ⟨digits, hdigits, hquad⟩ := isQuad_hexEscape hcontrol
    rw [hdigits]
    exact .hex hquad h
  · rename_i hcontrol
    exact .plain hquote hslash hcontrol h

theorem spells_writeChars (cs : List Char) : Spells cs (cs.flatMap Value.writeChar) := by
  induction cs with
  | nil => exact .nil
  | cons c cs ih =>
    rw [List.flatMap_cons]
    exact spells_writeChar c ih

end Writing

end GrammarCompletion.Json
