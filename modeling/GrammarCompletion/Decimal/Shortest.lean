/-! The shortest decimal that reads back as a given double. A finite double is `m * 2 ^ q`; the
reals that round to it fill an interval around it, whose ends belong to it if `m` is even. For
one digit, two digits and so on, the two neighbours of the double on that decimal grid are tried;
the first grid with a neighbour inside the interval wins, and of two the nearer one. -/

namespace GrammarCompletion

structure Decimal where
  digits : Nat
  exponent : Int
  deriving DecidableEq, Repr

namespace Decimal

/-- The rational `value / denominator` with the ends `low` and `high` of its interval over the
same denominator. -/
structure Interval where
  low : Nat
  value : Nat
  high : Nat
  denominator : Nat
  closed : Bool
  deriving DecidableEq, Repr

namespace Interval

def fractionLimit : Nat := 0x10000000000000

def exponentLimit : Nat := 0x800

def ofBits (bits : Nat) : Interval :=
  let fraction := bits % fractionLimit
  let biased := bits / fractionLimit % exponentLimit
  let m := if biased = 0 then fraction else fraction + fractionLimit
  let shift := if biased = 0 then 1 else biased
  -- In quarters of a unit, as the gap below a power of two is half as wide.
  let below := if fraction = 0 ∧ 1 < biased then 1 else 2
  let up := Nat.pow 2 (shift - 1077)
  { low := (4 * m - below) * up
    value := 4 * m * up
    high := (4 * m + 2) * up
    denominator := Nat.pow 2 (1077 - shift)
    closed := m % 2 = 0 }

def leadingExponent (i : Interval) : Int :=
  if i.denominator ≤ i.value then
    (Nat.toDigits 10 (i.value / i.denominator)).length - 1
  else
    -(((List.range 400).find? fun j => i.denominator ≤ i.value * Nat.pow 10 j).getD 0 : Nat)

def contains (i : Interval) (digits up down : Nat) : Bool :=
  let x := digits * up * i.denominator
  if i.closed then i.low * down ≤ x && x ≤ i.high * down
  else i.low * down < x && x < i.high * down

def onGrid? (i : Interval) (exponent : Int) : Option Nat :=
  let up := Nat.pow 10 exponent.toNat
  let down := Nat.pow 10 (-exponent).toNat
  let numerator := i.value * down
  let unit := i.denominator * up
  let floor := numerator / unit
  let fromFloor := numerator % unit
  match i.contains floor up down, i.contains (floor + 1) up down with
  | false, false => none
  | true, false => some floor
  | false, true => some (floor + 1)
  | true, true =>
    if 2 * fromFloor < unit ∨ (2 * fromFloor = unit ∧ floor % 2 = 0) then some floor
    else some (floor + 1)

end Interval

/-- The shortest decimal of the positive finite double with the given bits. Seventeen digits
always tell a double apart. -/
def shortest (bits : Nat) : Decimal :=
  let i := Interval.ofBits bits
  let leading := i.leadingExponent
  ((List.range 17).findSome? fun (n : Nat) =>
    let exponent := leading - n
    (i.onGrid? exponent).map fun digits => (⟨digits, exponent⟩ : Decimal)).getD ⟨0, 0⟩

end Decimal

end GrammarCompletion
