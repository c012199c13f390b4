/-! Layout between the tokens of grammar text: blanks, comments to the end of a line and complete
block comments. A block comment that is never closed is not layout. -/

namespace GrammarCompletion.Ebnf

def isBlank (c : Char) : Bool := c == ' ' || c == '\t' || c == '\r' || c == '\n'

def throughBlockEnd? : List Char → Option (List Char)
  | [] => none
  | '*' :: '/' :: _ => some ['*', '/']
  | c :: cs => (throughBlockEnd? cs).map (c :: ·)

/-- One blank or one comment at the front of the text. A line comment leaves its line feed. -/
def layoutPiece? : List Char → Option (List Char)
  | [] => none
  | '/' :: '/' :: cs => some ('/' :: '/' :: cs.takeWhile (· ≠ '\n'))
  | '/' :: '*' :: cs => (throughBlockEnd? cs).map ('/' :: '*' :: ·)
  | c :: _ => if isBlank c then some [c] else none

theorem layoutPiece?_ne_nil {cs piece : List Char} (h : layoutPiece? cs = some piece) :
    piece ≠ [] := by
  unfold layoutPiece? at h
  split at h
  · simp at h
  · simp only [Option.some.injEq] at h
    simp [← h]
  · obtain ⟨tail, _, rfl⟩ := Option.map_eq_some_iff.1 h
    simp
  · split at h
    · simp only [Option.some.injEq] at h
      simp [← h]
    · simp at h

theorem layoutPiece?_nil : layoutPiece? [] = none := rfl

theorem length_drop_layoutPiece?_lt {cs piece : List Char} (h : layoutPiece? cs = some piece) :
    (cs.drop piece.length).length < cs.length := by
  have hpiece := List.length_pos_iff.2 (layoutPiece?_ne_nil h)
  have hcs : cs ≠ [] := by
    rintro rfl
    simp [layoutPiece?_nil] at h
  have := List.length_pos_iff.2 hcs
  simp only [List.length_drop]
  omega

def layout (cs : List Char) : List Char :=
  match _found : layoutPiece? cs with
  | none => []
  | some piece => piece ++ layout (cs.drop piece.length)
termination_by cs.length
decreasing_by exact length_drop_layoutPiece?_lt _found

end GrammarCompletion.Ebnf
