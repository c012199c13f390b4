import GrammarCompletion.CommandLine.Arguments
import GrammarCompletion.CommandLine.Log
import GrammarCompletion.CommandLine.Output
import GrammarCompletion.Grammar.Source
import GrammarCompletion.Tree.Json

/-! A run of the program, given its arguments and the files that paths lead to. A run that fails
keeps the log entries up to its failure. -/

namespace GrammarCompletion.CommandLine

def fileName? (path : String) : Option String :=
  match ((path.splitOn "/").filter fun part => part ≠ "" ∧ part ≠ ".").getLast? with
  | some ".." => none
  | name => name

/-- The text behind the last dot of the file name. A dot at its front opens no extension. -/
def extension? (path : String) : Option String := do
  let parts := (← fileName? path).splitOn "."
  if parts.length < 2 ∨ parts.dropLast = [""] then none else parts.getLast?

abbrev Files := String → Option ByteArray

/-- The files of a working directory that holds no other directory. A path may step over single
dots and doubled slashes, but it has to end with the name of a file. -/
def Files.ofDirectory (entries : List (String × ByteArray)) : Files := fun path =>
  let parts := path.splitOn "/"
  let steps := parts.dropLast
  if steps.head? = some "" then none
  else if steps.all fun step => step = "" || step = "." then
    parts.getLast?.bind fun name => entries.lookup name
  else none

inductive Failure where
  | unreadableGrammar (path : String)
  | unreadableTree (path : String)
  | grammar (fault : Grammar.Fault)
  | tree (fault : Tree.Fault)
  | completion (fault : Completion.Fault)
  deriving DecidableEq, Repr

namespace Failure

def message : Failure → String
  | unreadableGrammar path => "failed to read grammar '" ++ path ++ "'"
  | unreadableTree path => "failed to read parse tree '" ++ path ++ "'"
  | grammar fault => fault.message
  | tree fault => fault.message
  | completion fault => fault.message

def code? : Failure → Option String
  | unreadableGrammar _ | unreadableTree _ => none
  | grammar fault => some fault.code
  | tree fault => some fault.code
  | completion fault => some fault.code

def help? : Failure → Option String
  | grammar fault => fault.help?
  | completion fault => fault.help?
  | _ => none

def isUnreadable : Failure → Bool
  | unreadableGrammar _ | unreadableTree _ => true
  | _ => false

end Failure

abbrev Run := ExceptT Failure (StateM (List Entry))

def note (level : Level) (place message : String) : Run Unit :=
  modify (· ++ [⟨level, "bnf_complete::" ++ place, message⟩])

def attempt {ε α : Type} (failure : ε → Failure) (result : Except ε α) : Run α :=
  match result with
  | .ok a => pure a
  | .error e => throw (failure e)

def readText (files : Files) (failure : Failure) (path : String) : Run String :=
  match (files path).bind String.fromUTF8? with
  | some text => pure text
  | none => throw failure

/-- Files with the extension `json` hold rule tables, all others grammar text. -/
def loadGrammar (files : Files) (path : String) : Run Grammar := do
  let text ← readText files (.unreadableGrammar path) path
  let g ← attempt .grammar <|
    if extension? path = some "json" then Grammar.ofTable text else Grammar.ofText path text
  note .info "cli" s!"loaded {g.size} rules from {path}"
  return g

def loadLinked (files : Files) (path : String) : Run LinkedGrammar := do
  let g ← attempt .grammar (← loadGrammar files path).link
  note .debug "grammar::index"
    s!"indexed {g.grammar.size} rules, {g.parents.length} referenced symbols"
  return g

def loadTree (files : Files) (path : String) : Run Arena := do
  attempt .tree (Arena.ofJson (← readText files (.unreadableTree path) path))

def noteContext (a : Arena) (cursor : Nat) (context : List Nat) : Run Unit :=
  let kinds := ", ".intercalate (context.map fun id => (a.kind? id).getD "")
  note .debug "completion::context" s!"cursor {cursor}: context [{kinds}]"

def noteNext (g : LinkedGrammar) (a : Arena) (id : Nat) : Run Unit :=
  match a.node? id with
  | none => pure ()
  | some n =>
    let symbols := ", ".intercalate ((g.nextSymbols a id).map Text.quoted)
    let span := "Span \x7b start: " ++ toString n.span.start ++ ", end: " ++
      toString n.span.stop ++ " \x7d"
    note .debug "completion::matcher"
      ("node '" ++ n.kind ++ "' at " ++ span ++ ": next \x7b" ++ symbols ++ "\x7d")

def noteExpansion (symbol : Symbol) (e : Expansion) : Run Unit := do
  e.entered.forM fun rule => note .trace "completion::expander" s!"expanding rule '{rule}'"
  note .trace "completion::expander"
    s!"expanded '{symbol}' to {e.literals.length} literals, {e.unlisted.length} opaque"

def suggest (c : Completer) (a : Arena) (cursor : Nat) : Run (List Suggestion) := do
  let context ← attempt .completion (c.context a cursor)
  noteContext a cursor context
  context.forM (noteNext c.grammar a)
  let suggestions ← attempt .completion (c.suggest a cursor)
  note .debug "completion" s!"cursor {cursor}: {suggestions.length} candidate symbols"
  suggestions.forM fun s => noteExpansion s.symbol s.expansion
  note .info "cli" s!"{suggestions.length} suggestions at offset {cursor}"
  return suggestions

def perform (files : Files) (json : Bool) : Command → Run String
  | .suggest grammar tree cursor choice => do
    let g ← loadLinked files grammar
    let a ← loadTree files tree
    let suggestions ← suggest ⟨g, choice⟩ a cursor
    return if json then writeJson (suggestionsJson suggestions) else suggestionsText suggestions
  | .rules grammar => do
    let g ← loadGrammar files grammar
    return if json then writeJson g.toJson else rulesText g
  | .parents grammar => do
    let g ← loadLinked files grammar
    return if json then writeJson (parentsJson g) else parentsText g
  | .expand grammar symbol => do
    let g ← loadLinked files grammar
    let e ← attempt .completion (g.expand symbol)
    noteExpansion symbol e
    return if json then writeJson (.object (expansionMembers e)) else expansionText symbol e

inductive Ending where
  | success
  | refused (refusal : Refusal)
  | failed (failure : Failure)
  deriving DecidableEq, Repr

def Ending.exitCode : Ending → Nat
  | success => 0
  | refused refusal => refusal.exitCode
  | failed _ => 1

structure Report where
  ending : Ending
  output : String
  log : String
  deriving DecidableEq, Repr

def versionText : String := line "bnf-complete 0.1.0"

def run (arguments : List String) (setting : Option String) (files : Files) : Report :=
  match Invocation.parse arguments with
  | .error .version => ⟨.refused .version, versionText, ""⟩
  | .error refusal => ⟨.refused refusal, "", ""⟩
  | .ok invocation =>
    let (result, entries) := (perform files invocation.json invocation.command).run []
    let log := writeLog setting invocation.verbose entries
    match result with
    | .ok output => ⟨.success, output, log⟩
    | .error failure => ⟨.failed failure, "", log⟩

end GrammarCompletion.CommandLine
