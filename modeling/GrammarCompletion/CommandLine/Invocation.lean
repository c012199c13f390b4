import GrammarCompletion.Completion.Closing

/-! What the program can be asked to do, and the ways in which its arguments can fail to ask. -/

namespace GrammarCompletion.CommandLine

inductive Command where
  | suggest (grammar tree : String) (cursor : Nat) (choice : LeafChoice)
  | rules (grammar : String)
  | parents (grammar : String)
  | expand (grammar symbol : String)
  deriving DecidableEq, Repr

structure Invocation where
  verbose : Bool
  json : Bool
  command : Command
  deriving DecidableEq, Repr

/-- Why arguments make no invocation. Asking for help or for the version is such a reason. -/
inductive Refusal where
  | help
  | version
  | noArguments
  | missingCommand
  | unknownCommand
  | unknownArgument
  | missingArgument
  | invalidValue
  | invalidNumber
  | repeated
  | unwantedValue
  deriving DecidableEq, Repr

namespace Refusal

def exitCode : Refusal → Nat
  | help | version => 0
  | _ => 2

end Refusal

def Command.files : Command → List String
  | suggest grammar tree _ _ => [grammar, tree]
  | rules grammar | parents grammar | expand grammar _ => [grammar]

end GrammarCompletion.CommandLine
