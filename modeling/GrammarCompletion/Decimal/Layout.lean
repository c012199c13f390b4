import GrammarCompletion.Decimal.Shortest

/-! How a double is written in digits. -/

namespace GrammarCompletion.Decimal

/-- Where positional writing begins and ends, by the power of ten of the leading digit. -/
structure Layout where
  leastPositional : Int
  greatestPositional : Int
  deriving DecidableEq, Repr

namespace Layout

def significant (d : Decimal) : List Char × Int :=
  let digits := Nat.toDigits 10 d.digits
  ((digits.reverse.dropWhile (· = '0')).reverse, d.exponent + digits.length - 1)

/-- A point always stands in the positional form, with a digit on either side. The other form
has one digit before the point, no point behind a single digit, and a signed exponent. -/
def write (layout : Layout) (d : Decimal) : List Char :=
  let (digits, leading) := significant d
  if layout.leastPositional ≤ leading ∧ leading ≤ layout.greatestPositional then
    if leading < 0 then
      ['0', '.'] ++ List.replicate ((-leading).toNat - 1) '0' ++ digits
    else
      let whole := digits.take (leading.toNat + 1)
      let fraction := digits.drop (leading.toNat + 1)
      whole ++ List.replicate (leading.toNat + 1 - whole.length) '0' ++ ['.'] ++
        (if fraction = [] then ['0'] else fraction)
  else
    let fraction := digits.drop 1
    digits.take 1 ++ (if fraction = [] then [] else '.' :: fraction) ++
      ['e', if leading < 0 then '-' else '+'] ++ Nat.toDigits 10 leading.natAbs

def signBit : Nat := 0x8000000000000000

def writeBits (layout : Layout) (bits : Nat) : String :=
  let sign := if bits / signBit % 2 = 1 then ['-'] else []
  let magnitude := bits % signBit
  String.ofList (sign ++
    if magnitude = 0 then ['0', '.', '0'] else layout.write (shortest magnitude))

end Layout

end GrammarCompletion.Decimal
