import GrammarCompletion.Json.Skip
import GrammarCompletion.Json.Value
import GrammarCompletion.Tree.Arena

/-! Parse trees as JSON. A node is an object with the members `type`, `text`, `start`, `end` and
`children` in any order, of which `text` and `children` may be left out and others are skipped;
or it is a list of the five in this order, where `children` may be left out. Drafts and both forms
follow what the JSON library derives from the fields of a node; it is not part of this repository. -/

namespace GrammarCompletion.Tree

open Json.Reader (advance element? mismatch peek)

structure Draft where
  kind : Option String := none
  text : Option String := none
  start : Option Nat := none
  stop : Option Nat := none
  children : Option (List Tree) := none

namespace Draft

def finish (d : Draft) : Except Json.Fault Tree := do
  let some kind := d.kind | throw (.missingField "type")
  let some start := d.start | throw (.missingField "start")
  let some stop := d.stop | throw (.missingField "end")
  return node kind (d.text.getD "") ⟨start, stop⟩ (d.children.getD [])

def field {α : Type} (known : Option α) (key : String) (value : Json.Reader α) :
    Json.Reader α := do
  if known.isSome then throw (.duplicateField key)
  Json.Reader.colon
  value

def member (d : Draft) (child : Json.Reader Tree) (key : String) : Json.Reader Draft := do
  match key with
  | "type" => return { d with kind := some (← field d.kind key Json.Reader.string) }
  | "text" => return { d with text := some (← field d.text key Json.Reader.string) }
  | "start" => return { d with start := some (← field d.start key Json.Reader.offset) }
  | "end" => return { d with stop := some (← field d.stop key Json.Reader.offset) }
  | "children" =>
    return { d with children := some (← field d.children key (Json.Reader.sequence child)) }
  | _ =>
    Json.Reader.colon
    Json.Reader.skipValue
    return d

def members (child : Json.Reader Tree) : Nat → Bool → Draft → Json.Reader Tree
  | 0, _, _ => throw .endInObject
  | bound + 1, first, d => do
    match ← Json.Reader.nextKey first with
    | none =>
      let t ← d.finish
      advance
      return t
    | some key => members child bound false (← d.member child key)

end Draft

def closePositional : Json.Reader Unit := do
  match ← peek with
  | none => throw .endInList
  | some ']' => advance
  | some ',' =>
    advance
    match ← peek with
    | some ']' => throw .trailingComma
    | _ => throw .trailingCharacters
  | some _ => throw .trailingCharacters

def positional (child : Json.Reader Tree) : Json.Reader Tree := do
  let some kind ← element? true Json.Reader.string | throw (.tooShort 0)
  let text ← element? false Json.Reader.string
  let some start ← element? false Json.Reader.offset | throw (.tooShort 2)
  let some stop ← element? false Json.Reader.offset | throw (.tooShort 3)
  let children ← element? false (Json.Reader.sequence child)
  closePositional
  return node kind (text.getD "") ⟨start, stop⟩ (children.getD [])

def readUpTo : Nat → Json.Reader Tree
  | 0 => throw .endInValue
  | depth + 1 => do
    match ← peek with
    | some '[' => advance; positional (readUpTo depth)
    | some '{' =>
      advance
      Draft.members (readUpTo depth) ((← get).length + 1) true {}
    | _ => mismatch .node

/-- The tree of a JSON text. Each node takes a character, so none nests deeper than the text is
long. -/
def ofJson (text : String) : Except Json.Fault Tree :=
  Json.Reader.all (readUpTo (text.length + 1)) text

mutual

def toJson : Tree → Json.Value
  | node kind text span children =>
    .object [("type", .string kind), ("text", .string text), ("start", .number span.start),
      ("end", .number span.stop), ("children", .array (toJsonAll children))]

def toJsonAll : List Tree → List Json.Value
  | [] => []
  | t :: ts => t.toJson :: toJsonAll ts

end

end GrammarCompletion.Tree

namespace GrammarCompletion.Arena

def ofJson (text : String) : Except Tree.Fault Arena :=
  match Tree.ofJson text with
  | .error fault => .error (.unreadable fault)
  | .ok t => ofTree t

end GrammarCompletion.Arena
