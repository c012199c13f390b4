/-! Log entries and the choice of those that are shown. -/

namespace GrammarCompletion.CommandLine

inductive Level where
  | error
  | warn
  | info
  | debug
  | trace
  deriving DecidableEq, Repr

namespace Level

def rank : Level → Nat
  | error => 1
  | warn => 2
  | info => 3
  | debug => 4
  | trace => 5

def label : Level → String
  | error => "ERROR"
  | warn => "WARN "
  | info => "INFO "
  | debug => "DEBUG"
  | trace => "TRACE"

end Level

structure Entry where
  level : Level
  target : String
  message : String
  deriving DecidableEq, Repr

def rankOfName (name : String) : Nat :=
  match String.ofList (name.toList.map Char.toLower) with
  | "error" => 1
  | "warn" => 2
  | "info" => 3
  | "debug" => 4
  | "trace" => 5
  | _ => 0

def shownRank (setting : Option String) (verbose : Bool) : Nat :=
  match setting with
  | some name => rankOfName name
  | none => if verbose then Level.debug.rank else Level.warn.rank

def Entry.write (verbose : Bool) (e : Entry) : String :=
  let place := if verbose then e.target ++ " " ++ e.target else e.target
  "[" ++ e.level.label ++ " " ++ place ++ "] " ++
    "\n    ".intercalate (e.message.splitOn "\n") ++ "\n"

def writeLog (setting : Option String) (verbose : Bool) (entries : List Entry) : String :=
  String.join ((entries.filter (·.level.rank ≤ shownRank setting verbose)).map (Entry.write verbose))

end GrammarCompletion.CommandLine
