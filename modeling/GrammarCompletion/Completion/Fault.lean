/-! Why there is no completion. -/

namespace GrammarCompletion.Completion

inductive Fault where
  | noLeafAtCursor (cursor : Nat)
  | cursorOutOfRange (cursor extent : Nat)
  | unknownSymbol (symbol : String)
  deriving DecidableEq, Repr

namespace Fault

def message : Fault → String
  | noLeafAtCursor cursor => "no atomic node ends at cursor offset " ++ toString cursor
  | cursorOutOfRange cursor extent =>
    "cursor offset " ++ toString cursor ++ " is outside the parsed input (0..=" ++
      toString extent ++ ")"
  | unknownSymbol symbol => "symbol '" ++ symbol ++ "' is neither a rule nor a terminal"

def code : Fault → String
  | noLeafAtCursor _ => "bnf_complete::no_atomic_node"
  | cursorOutOfRange _ _ => "bnf_complete::cursor_out_of_range"
  | unknownSymbol _ => "bnf_complete::unknown_symbol"

def help? : Fault → Option String
  | noLeafAtCursor _ =>
    some "completion is only available when the cursor sits exactly at the end of a token"
  | _ => none

end Fault

end GrammarCompletion.Completion
