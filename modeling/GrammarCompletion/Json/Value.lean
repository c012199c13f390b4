import GrammarCompletion.Text.Basic

/-! JSON values as they are written out: natural numbers, strings and containers, one member a
line, indented by two blanks a level. Only quotes, backslashes and control characters of a string
are escaped. This is the indented form of the JSON library, which is not part of this repository. -/

namespace GrammarCompletion.Json

inductive Value where
  | number (n : Nat)
  | string (s : String)
  | array (elements : List Value)
  | object (members : List (String × Value))

namespace Value

def strings (texts : List String) : Value := .array (texts.map .string)

def hexEscape (c : Char) : List Char :=
  let digits := Text.toHex c.toNat
  ['\\', 'u'] ++ List.replicate (4 - digits.length) '0' ++ digits

def writeChar (c : Char) : List Char :=
  match c with
  | '"' => ['\\', '"']
  | '\\' => ['\\', '\\']
  | '\x08' => ['\\', 'b']
  | '\x0c' => ['\\', 'f']
  | '\n' => ['\\', 'n']
  | '\r' => ['\\', 'r']
  | '\t' => ['\\', 't']
  | c => if c < ' ' then hexEscape c else [c]

def writeString (s : String) : List Char := '"' :: s.toList.flatMap writeChar ++ ['"']

def newline (level : Nat) : List Char := '\n' :: List.replicate (2 * level) ' '

mutual

def writeAt (level : Nat) : Value → List Char
  | number n => Nat.toDigits 10 n
  | string s => writeString s
  | array [] => ['[', ']']
  | array (v :: vs) =>
    '[' :: newline (level + 1) ++ writeAt (level + 1) v ++ writeElements (level + 1) vs ++
      newline level ++ [']']
  | object [] => ['{', '}']
  | object ((key, v) :: rest) =>
    '{' :: newline (level + 1) ++ writeString key ++ [':', ' '] ++ writeAt (level + 1) v ++
      writeMembers (level + 1) rest ++ newline level ++ ['}']

def writeElements (level : Nat) : List Value → List Char
  | [] => []
  | v :: vs => ',' :: newline level ++ writeAt level v ++ writeElements level vs

def writeMembers (level : Nat) : List (String × Value) → List Char
  | [] => []
  | (key, v) :: rest =>
    ',' :: newline level ++ writeString key ++ [':', ' '] ++ writeAt level v ++
      writeMembers level rest

end

def write (v : Value) : String := String.ofList (v.writeAt 0)

end Value

end GrammarCompletion.Json
