/-! Numbers in JSON text. A whole number that fits 64 bits is kept exactly; any other becomes a
double, known by its bits. How the digits become a double follows the JSON library, which is not part
of this repository. -/

namespace GrammarCompletion.Json

inductive Number where
  | natural (n : Nat)
  /-- The integer `-n`, where `n` is positive. -/
  | negative (n : Nat)
  | double (bits : UInt64)
  deriving DecidableEq, Repr

namespace Number

def maxWord : Nat := 0xFFFFFFFFFFFFFFFF

def absorb (significand : Nat) : List Char → Nat × List Char
  | [] => (significand, [])
  | d :: ds =>
    let next := 10 * significand + (d.toNat - '0'.toNat)
    if next ≤ maxWord then absorb next ds else (significand, d :: ds)

def powerOfTen (k : Nat) : Float := Float.ofScientific 1 false k

/-- Divides by `10 ^ k`. Powers beyond the range of doubles are divided out in parts. -/
def divideByPower (f : Float) (k : Nat) : Float :=
  if k ≤ 308 then f / powerOfTen k
  else if f == 0 then f
  else divideByPower (f / powerOfTen 308) (k - 308)
termination_by k

def magnitude? (significand : Nat) (exponent : Int) : Option Float :=
  let f := significand.toUInt64.toFloat
  if exponent < 0 then some (divideByPower f exponent.natAbs)
  else if exponent.natAbs ≤ 308 then
    let scaled := f * powerOfTen exponent.natAbs
    if scaled.isInf then none else some scaled
  else if significand = 0 then some f
  else none

def ofMagnitude (negated : Bool) (f : Float) : Number :=
  double (if negated then -f else f).toBits

/-- A number written without point and exponent. Minus zero and what lies below the least signed
word are doubles. -/
def ofWord (negated : Bool) (n : Nat) : Number :=
  if ¬ negated then natural n
  else if n = 0 ∨ 0x8000000000000000 < n then ofMagnitude true n.toUInt64.toFloat
  else negative n

end Number

end GrammarCompletion.Json
