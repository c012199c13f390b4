import GrammarCompletion.Json.Reader

/-! Values that nobody asked for. They have to be well-formed, but their numbers may have any
size and their surrogates need no partner, and a comma at the end of a container is met as a
missing value or key. In this they follow the JSON library, which is not part of this repository. -/

namespace GrammarCompletion.Json.Reader

def skipString : Reader Unit := do
  set (← Json.skipString (← get))

def skipDigits : Reader Unit := do
  if (← digits) = [] then throw .invalidNumber

def skipExponent : Reader Unit := do
  match (← get).head? with
  | some 'e' | some 'E' =>
    advance
    match (← get).head? with
    | some '+' | some '-' => advance
    | _ => pure ()
    skipDigits
  | _ => pure ()

def skipNumber : Reader Unit := do
  match ← digits with
  | [] => throw .invalidNumber
  | ds => if ds.head? = some '0' ∧ 1 < ds.length then throw .invalidNumber
  match (← get).head? with
  | some '.' => advance; skipDigits; skipExponent
  | _ => skipExponent

def skipElements (value : Reader Unit) : Nat → Reader Unit
  | 0 => throw .endInList
  | bound + 1 => do
    value
    match ← peek with
    | none => throw .endInList
    | some ']' => advance
    | some ',' => advance; skipElements value bound
    | some _ => throw .noListEnd

def skipMembers (value : Reader Unit) : Nat → Reader Unit
  | 0 => throw .endInObject
  | bound + 1 => do
    match ← peek with
    | none => throw .endInObject
    | some '"' => advance; skipString
    | some _ => throw .keyNotString
    colon
    value
    match ← peek with
    | none => throw .endInObject
    | some '}' => advance
    | some ',' => advance; skipMembers value bound
    | some _ => throw .noObjectEnd

def skipUpTo : Nat → Reader Unit
  | 0 => throw .endInValue
  | depth + 1 => do
    match ← peek with
    | none => throw .endInValue
    | some 'n' => advance; word ['u', 'l', 'l']
    | some 't' => advance; word ['r', 'u', 'e']
    | some 'f' => advance; word ['a', 'l', 's', 'e']
    | some '-' => advance; skipNumber
    | some '"' => advance; skipString
    | some '[' =>
      advance
      match ← peek with
      | none => throw .endInList
      | some ']' => advance
      | some _ => skipElements (skipUpTo depth) ((← get).length + 1)
    | some '{' =>
      advance
      match ← peek with
      | none => throw .endInObject
      | some '}' => advance
      | some _ => skipMembers (skipUpTo depth) ((← get).length + 1)
    | some c => if c.isDigit then skipNumber else throw .noValue

/-- A value of any kind. Each container takes a character, so none nests deeper than the text is
long. -/
def skipValue : Reader Unit := do
  skipUpTo ((← get).length + 1)

end GrammarCompletion.Json.Reader
