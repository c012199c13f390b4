import Mathlib.Data.List.Induction
import GrammarCompletion.Text.Basic

/-! Numbers in hexadecimal digits. A run of digits is read as the number it stands for, whatever the
case of its letters and whether or not zeros stand in front; a digit takes one byte. -/

namespace GrammarCompletion.Text

def lowerDigits : List Char :=
  ['0', '1', '2', '3', '4', '5', '6', '7', '8', '9', 'a', 'b', 'c', 'd', 'e', 'f']

def upperDigits : List Char :=
  ['0', '1', '2', '3', '4', '5', '6', '7', '8', '9', 'A', 'B', 'C', 'D', 'E', 'F']

def IsHexDigit (c : Char) (d : Nat) : Prop := lowerDigits[d]? = some c ∨ upperDigits[d]? = some c

/-- The hexadecimal digits of a number, most significant first and with zeros in front or without. -/
inductive IsNumeral : List Char → Nat → Prop where
  | nil : IsNumeral [] 0
  | snoc {digits : List Char} {c : Char} {n d : Nat} (front : IsNumeral digits n)
      (last : IsHexDigit c d) : IsNumeral (digits ++ [c]) (16 * n + d)

theorem lt_of_isHexDigit {c : Char} {d : Nat} (h : IsHexDigit c d) : d < 16 := by
  rcases h with h | h
  · exact (List.getElem?_eq_some_iff.1 h).1
  · exact (List.getElem?_eq_some_iff.1 h).1

instance (c : Char) (d : Nat) : Decidable (IsHexDigit c d) := inferInstanceAs (Decidable (_ ∨ _))

theorem toNat_lt_of_hexDigit? {c : Char} {d : Nat} (h : hexDigit? c = some d) : c.toNat < 103 := by
  have hbound : c ≤ 'f' → c.toNat < 103 := fun hle => Nat.lt_succ_of_le hle
  unfold hexDigit? at h
  split at h
  · rename_i hrange
    exact hbound (Nat.le_trans hrange.2 (by decide))
  · split at h
    · rename_i hrange
      exact hbound hrange.2
    · split at h
      · rename_i hrange
        exact hbound (Nat.le_trans hrange.2 (by decide))
      · simp at h

theorem hexDigit?_eq_some_iff {c : Char} {d : Nat} : hexDigit? c = some d ↔ IsHexDigit c d := by
  constructor
  · intro h
    -- All digits are among the first characters, which can be tried one by one.
    have hall : ∀ n < 103, ∀ d ∈ hexDigit? (Char.ofNat n), IsHexDigit (Char.ofNat n) d := by decide
    have hc := hall c.toNat (toNat_lt_of_hexDigit? h) d
    rw [Char.ofNat_toNat] at hc
    exact hc h
  · intro h
    have hlower : ∀ n < 16, lowerDigits[n]?.bind hexDigit? = some n := by decide
    have hupper : ∀ n < 16, upperDigits[n]?.bind hexDigit? = some n := by decide
    have hd := lt_of_isHexDigit h
    rcases h with h | h
    · rw [← hlower d hd, h, Option.bind_some]
    · rw [← hupper d hd, h, Option.bind_some]

theorem hexValue?_append_singleton (digits : List Char) (c : Char) :
    hexValue? (digits ++ [c]) =
      (hexValue? digits).bind fun n => (hexDigit? c).map (16 * n + ·) := by
  unfold hexValue?
  rw [List.foldlM_append]
  simp

theorem hexValue?_eq_some_iff {digits : List Char} {n : Nat} :
    hexValue? digits = some n ↔ IsNumeral digits n := by
  constructor
  · intro h
    induction digits using List.reverseRecOn generalizing n with
    | nil =>
      obtain rfl : 0 = n := Option.some.inj h
      exact .nil
    | append_singleton digits c ih =>
      rw [hexValue?_append_singleton] at h
      obtain ⟨m, hm, hlast⟩ := Option.bind_eq_some_iff.1 h
      obtain ⟨d, hd, rfl⟩ := Option.map_eq_some_iff.1 hlast
      exact .snoc (ih hm) (hexDigit?_eq_some_iff.1 hd)
  · intro h
    induction h with
    | nil => rfl
    | snoc front last ih =>
      rw [hexValue?_append_singleton, ih, hexDigit?_eq_some_iff.2 last]
      rfl

theorem IsNumeral.isHexDigit {digits : List Char} {n : Nat} (h : IsNumeral digits n) :
    ∀ c ∈ digits, isHexDigit c = true := by
  induction h with
  | nil => simp
  | snoc front last ih =>
    rw [List.forall_mem_append, List.forall_mem_singleton]
    exact ⟨ih, by rw [Text.isHexDigit, hexDigit?_eq_some_iff.2 last, Option.isSome_some]⟩

theorem utf8Size_of_isHexDigit {c : Char} {d : Nat} (h : IsHexDigit c d) : c.utf8Size = 1 := by
  have hlt := toNat_lt_of_hexDigit? (hexDigit?_eq_some_iff.2 h)
  rw [Char.utf8Size_eq_one_iff, UInt32.le_iff_toNat_le]
  exact Nat.le_trans (Nat.le_of_lt hlt) (by decide)

theorem IsNumeral.byteCount_eq {digits : List Char} {n : Nat} (h : IsNumeral digits n) :
    byteCount digits = digits.length := by
  induction h with
  | nil => rfl
  | snoc front last ih =>
    rw [byteCount_append, ih, List.length_append, byteCount_cons, byteCount_nil,
      utf8Size_of_isHexDigit last]
    rfl

theorem scalar?_eq_some_iff {n : Nat} {c : Char} : scalar? n = some c ↔ n = c.toNat := by
  unfold scalar?
  constructor
  · intro h
    split at h
    · rename_i hvalid
      rw [← Option.some.inj h, Char.ofNat, dif_pos hvalid]
      rfl
    · simp at h
  · rintro rfl
    have hvalid : c.toNat.isValidChar := c.valid
    rw [if_pos hvalid, Char.ofNat_toNat]

end GrammarCompletion.Text
