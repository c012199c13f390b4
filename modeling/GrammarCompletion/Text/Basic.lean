/-! Text by bytes and by digits. Offsets into text, and the lengths that the escapes of a terminal are
held to, count its bytes in UTF-8. Hexadecimal digits are read in either case and written in lower
case. -/

namespace GrammarCompletion

structure Span where
  start : Nat
  stop : Nat
  deriving DecidableEq, Repr

namespace Span

def isEmpty (s : Span) : Bool := s.start = s.stop

def width (s : Span) : Nat := s.stop - s.start

end Span

namespace Text

def byteCount : List Char → Nat
  | [] => 0
  | c :: cs => c.utf8Size + byteCount cs

@[simp] theorem byteCount_nil : byteCount [] = 0 := rfl

@[simp] theorem byteCount_cons (c : Char) (cs : List Char) :
    byteCount (c :: cs) = c.utf8Size + byteCount cs := rfl

@[simp] theorem byteCount_append (cs ds : List Char) :
    byteCount (cs ++ ds) = byteCount cs + byteCount ds := by
  induction cs with
  | nil => simp
  | cons c cs ih => simp only [List.cons_append, byteCount_cons, ih, Nat.add_assoc]

theorem eq_of_append_eq_append {cs ds rest rest' : List Char} (h : cs ++ rest = ds ++ rest')
    (hcount : byteCount cs = byteCount ds) : cs = ds := by
  induction cs generalizing ds with
  | nil =>
    cases ds with
    | nil => rfl
    | cons d ds =>
      have hpos := d.utf8Size_pos
      rw [byteCount_nil, byteCount_cons] at hcount
      omega
  | cons c cs ih =>
    cases ds with
    | nil =>
      have hpos := c.utf8Size_pos
      rw [byteCount_nil, byteCount_cons] at hcount
      omega
    | cons d ds =>
      obtain ⟨rfl, htail⟩ := List.cons.inj h
      rw [byteCount_cons, byteCount_cons] at hcount
      rw [ih htail (Nat.add_left_cancel hcount)]

theorem utf8ByteSize_ofList (cs : List Char) :
    (String.ofList cs).utf8ByteSize = byteCount cs := by
  induction cs with
  | nil => rw [String.ofList_nil, String.utf8ByteSize_empty, byteCount_nil]
  | cons c cs ih =>
    rw [String.ofList_cons, String.utf8ByteSize_append, String.utf8ByteSize_singleton, ih,
      byteCount_cons]

def hexDigit? (c : Char) : Option Nat :=
  if '0' ≤ c ∧ c ≤ '9' then some (c.toNat - '0'.toNat)
  else if 'a' ≤ c ∧ c ≤ 'f' then some (c.toNat - 'a'.toNat + 10)
  else if 'A' ≤ c ∧ c ≤ 'F' then some (c.toNat - 'A'.toNat + 10)
  else none

def isHexDigit (c : Char) : Bool := (hexDigit? c).isSome

def hexValue? (digits : List Char) : Option Nat :=
  digits.foldlM (fun value c => (hexDigit? c).map (16 * value + ·)) 0

/-- The character of a code point: none for a surrogate or above U+10FFFF. -/
def scalar? (codePoint : Nat) : Option Char :=
  if codePoint.isValidChar then some (Char.ofNat codePoint) else none

def toHex (n : Nat) : List Char := Nat.toDigits 16 n

end Text

end GrammarCompletion
