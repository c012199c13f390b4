import GrammarCompletion.CommandLine.Run

/-! The command line program. -/

namespace GrammarCompletion.CommandLine

def usageText : String :=
  "Grammar-aware completion: what may follow the token at a cursor.\n\n" ++
  "Usage: bnf-complete [-v|--verbose] [--json] COMMAND\n\n" ++
  "  suggest -g FILE -t FILE -c N [--leaf-selection union|rightmost|first]\n" ++
  "  rules -g FILE\n" ++
  "  parents -g FILE\n" ++
  "  expand -g FILE SYMBOL\n" ++
  "  help [COMMAND]\n"

def readFiles (paths : List String) : IO (List (String × ByteArray)) :=
  paths.filterMapM fun (path : String) => do
    try return some (path, ← IO.FS.readBinFile path)
    catch _ => return none

def failureText (failure : Failure) : String :=
  "Error: " ++ (failure.code?.map (· ++ "\n\n  ")).getD "" ++ failure.message ++ "\n" ++
    (failure.help?.map fun help => "  help: " ++ help ++ "\n").getD ""

end GrammarCompletion.CommandLine

open GrammarCompletion.CommandLine in
def main (arguments : List String) : IO UInt32 := do
  let paths := match Invocation.parse arguments with
    | .ok invocation => invocation.command.files
    | .error _ => []
  let contents ← readFiles paths
  let report := run arguments (← IO.getEnv "BNF_COMPLETE_LOG") fun path => contents.lookup path
  IO.eprint report.log
  IO.print report.output
  match report.ending with
  | .refused .help => IO.print usageText
  | .refused .version | .success => pure ()
  | .refused _ => IO.eprint usageText
  | .failed failure => IO.eprint (failureText failure)
  return UInt32.ofNat report.ending.exitCode
