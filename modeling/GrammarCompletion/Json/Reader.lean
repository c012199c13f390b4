import GrammarCompletion.Json.Text

/-! Readers of JSON text that know what they ask for. A value of another kind is a fault as soon
as it is met: scalars are read first, so that the fault can show them, and containers are not
entered. What the readers accept follows the JSON library, which is not part of this repository. -/

namespace GrammarCompletion.Json

abbrev Reader := StateT (List Char) (Except Fault)

namespace Reader

variable {α : Type}

def isBlank (c : Char) : Bool := c == ' ' || c == '\n' || c == '\t' || c == '\r'

def skipBlanks : Reader Unit := modify (·.dropWhile isBlank)

def peek : Reader (Option Char) := do
  skipBlanks
  return (← get).head?

def advance : Reader Unit := modify List.tail

def scan (f : List Char → Except Fault (α × List Char)) : Reader α := f

def digits : Reader (List Char) := do
  let cs ← get
  set (cs.dropWhile Char.isDigit)
  return cs.takeWhile Char.isDigit

def someDigits : Reader (List Char) := do
  match ← digits with
  | [] => throw (if (← get) = [] then .endInValue else .invalidNumber)
  | ds => return ds

structure Scaled where
  significand : Nat
  exponent : Int

def Scaled.double (negated : Bool) (s : Scaled) : Except Fault Number :=
  match Number.magnitude? s.significand s.exponent with
  | some f => .ok (Number.ofMagnitude negated f)
  | none => .error .numberOutOfRange

/-- The greatest exponent that is added up; beyond it only its sign counts. -/
def maxExponent : Nat := 0x7FFFFFFF

def exponent (negated : Bool) (s : Scaled) : Reader Number := do
  let below ← match (← get).head? with
    | some '+' => advance; pure false
    | some '-' => advance; pure true
    | _ => pure false
  let ds ← someDigits
  let value := Nat.ofDigitChars 10 ds 0
  if maxExponent < value then
    if s.significand ≠ 0 ∧ ¬ below then throw .numberOutOfRange
    else return Number.ofMagnitude negated 0
  else
    Scaled.double negated ⟨s.significand, if below then s.exponent - value else s.exponent + value⟩

def maybeExponent (negated : Bool) (s : Scaled) : Reader Number := do
  match (← get).head? with
  | some 'e' | some 'E' => advance; exponent negated s
  | _ => Scaled.double negated s

/-- A number behind its minus sign. No zero may lead another digit. Whole digits that no longer
fit a word only raise the exponent, and such digits behind the point are dropped. -/
def number (negated : Bool) : Reader Number := do
  let ds ← someDigits
  if ds.head? = some '0' ∧ 1 < ds.length then throw .invalidNumber
  let (significand, excess) := Number.absorb 0 ds
  match (← get).head? with
  | some '.' =>
    advance
    let fraction ← someDigits
    let (significand, dropped) := Number.absorb significand fraction
    maybeExponent negated
      ⟨significand, excess.length - ((fraction.length - dropped.length : Nat) : Int)⟩
  | some 'e' | some 'E' => advance; exponent negated ⟨significand, excess.length⟩
  | _ =>
    if excess = [] then return Number.ofWord negated significand
    else Scaled.double negated ⟨significand, excess.length⟩

def word : List Char → Reader Unit
  | [] => pure ()
  | c :: cs => do
    match (← get) with
    | [] => throw .endInValue
    | d :: rest =>
      if d = c then set rest; word cs
      else throw .misspeltWord

def quoted : Reader String := do
  return String.ofList (← scan stringBody)

def found : Reader Found := do
  match ← peek with
  | none => throw .endInValue
  | some 'n' => advance; word ['u', 'l', 'l']; return .null
  | some 't' => advance; word ['r', 'u', 'e']; return .boolean true
  | some 'f' => advance; word ['a', 'l', 's', 'e']; return .boolean false
  | some '-' => advance; return .number (← number true)
  | some '"' => advance; return .string (← quoted)
  | some '[' => return .sequence
  | some '{' => return .map
  | some c => if c.isDigit then return .number (← number false) else throw .noValue

def mismatch (expected : Shape) : Reader α := do
  throw (.wrongType (← found) expected)

def string : Reader String := do
  match ← peek with
  | some '"' => advance; quoted
  | _ => mismatch .string

def offset : Reader Nat := do
  let read (negated : Bool) : Reader Nat := do
    match ← number negated with
    | .natural n => return n
    | .negative n => throw (.negativeOffset n)
    | n => throw (.wrongType (.number n) .offset)
  match ← peek with
  | some '-' => advance; read true
  | some c => if c.isDigit then read false else mismatch .offset
  | none => mismatch .offset

def nextElement (first : Bool) : Reader Bool := do
  match ← peek with
  | none => throw .endInList
  | some ']' => return false
  | some c =>
    if first then return true
    else if c = ',' then
      advance
      match ← peek with
      | none => throw .endInValue
      | some ']' => throw .trailingComma
      | some _ => return true
    else throw .noListEnd

def element? (first : Bool) (element : Reader α) : Reader (Option α) := do
  if ← nextElement first then return some (← element) else return none

/-- The elements that follow, with the closing bracket. Each takes a character, so `bound` is
the number of characters that are left. -/
def elements (element : Reader α) : Nat → Bool → Reader (List α)
  | 0, _ => throw .endInList
  | bound + 1, first => do
    match ← element? first element with
    | none => advance; return []
    | some a => return a :: (← elements element bound false)

def sequence (element : Reader α) : Reader (List α) := do
  match ← peek with
  | some '[' =>
    advance
    elements element ((← get).length + 1) true
  | _ => mismatch .sequence

def nextKey (first : Bool) : Reader (Option String) := do
  match ← peek with
  | none => throw .endInObject
  | some '}' => return none
  | some c =>
    if first then
      if c = '"' then advance; return some (← quoted) else throw .keyNotString
    else if c = ',' then
      advance
      match ← peek with
      | none => throw .endInValue
      | some '"' => advance; return some (← quoted)
      | some '}' => throw .trailingComma
      | some _ => throw .keyNotString
    else throw .noObjectEnd

def colon : Reader Unit := do
  match ← peek with
  | none => throw .endInObject
  | some ':' => advance
  | some _ => throw .noColon

def members (value : Reader α) : Nat → Bool → Reader (List (String × α))
  | 0, _ => throw .endInObject
  | bound + 1, first => do
    match ← nextKey first with
    | none => advance; return []
    | some key =>
      colon
      let a ← value
      return (key, a) :: (← members value bound false)

def map (value : Reader α) : Reader (List (String × α)) := do
  match ← peek with
  | some '{' =>
    advance
    members value ((← get).length + 1) true
  | _ => mismatch .map

def all (reader : Reader α) (text : String) : Except Fault α := do
  let (a, rest) ← reader text.toList
  if rest.all isBlank then return a else throw .trailingCharacters

end Reader

end GrammarCompletion.Json
