import GrammarCompletion.CommandLine.Invocation

/-! Reading of arguments, from left to right. Options of the program stand before the command or
behind it, those of a command behind it. A value may be attached to its option or stand in the
next argument, where it may not look like an option. A value that stands alone is only checked
when the next known option or operand is met or the arguments end, so an unknown argument right
behind it is reported first. In this the readers follow the library for arguments, which is not part of
this repository. -/

namespace GrammarCompletion.CommandLine

inductive Verb where
  | suggest
  | rules
  | parents
  | expand
  deriving DecidableEq, Repr

def Verb.ofWord? : String → Option Verb
  | "suggest" => some suggest
  | "rules" => some rules
  | "parents" => some parents
  | "expand" => some expand
  | _ => none

inductive Flag where
  | verbose
  | json
  | help
  | version
  deriving DecidableEq, Repr

inductive Slot where
  | grammar
  | tree
  | cursor
  | choice
  | symbol
  deriving DecidableEq, Repr

inductive Switch where
  | flag (f : Flag)
  | slot (s : Slot)
  deriving DecidableEq, Repr

def longSwitch? (verb : Option Verb) (name : String) : Option Switch :=
  match name with
  | "verbose" => some (.flag .verbose)
  | "json" => some (.flag .json)
  | "help" => some (.flag .help)
  | "version" => if verb = none then some (.flag .version) else none
  | "grammar" => if verb = none then none else some (.slot .grammar)
  | "tree" => if verb = some .suggest then some (.slot .tree) else none
  | "cursor" => if verb = some .suggest then some (.slot .cursor) else none
  | "leaf-selection" => if verb = some .suggest then some (.slot .choice) else none
  | _ => none

def shortSwitch? (verb : Option Verb) (letter : Char) : Option Switch :=
  match letter with
  | 'v' => longSwitch? verb "verbose"
  | 'h' => longSwitch? verb "help"
  | 'V' => longSwitch? verb "version"
  | 'g' => longSwitch? verb "grammar"
  | 't' => longSwitch? verb "tree"
  | 'c' => longSwitch? verb "cursor"
  | _ => none

structure Given where
  verbose : Bool := false
  json : Bool := false
  grammar : Option String := none
  tree : Option String := none
  cursor : Option Nat := none
  choice : Option LeafChoice := none
  symbol : Option String := none
  /-- What was last asked for, and its value once that has come. -/
  pending : Option (Slot × Option String) := none
  escaped : Bool := false
  deriving DecidableEq, Repr

def maxOffset : Nat := 0xFFFFFFFFFFFFFFFF

def parseOffset? (text : String) : Option Nat :=
  let digits := match text.toList with
    | '+' :: cs => cs
    | cs => cs
  if digits ≠ [] ∧ digits.all Char.isDigit then
    let n := Nat.ofDigitChars 10 digits 0
    if n ≤ maxOffset then some n else none
  else none

def parseChoice? : String → Option LeafChoice
  | "union" => some .all
  | "rightmost" => some .rightmost
  | "first" => some .first
  | _ => none

namespace Given

def fresh {α : Type} (known : Option α) (fault : Refusal) (value : Option α) :
    Except Refusal (Option α) :=
  if known.isSome then .error .repeated
  else match value with
    | none => .error fault
    | some a => .ok (some a)

def parsePath? (text : String) : Option String := if text.isEmpty then none else some text

def store (g : Given) (slot : Slot) (text : String) : Except Refusal Given := do
  match slot with
  | .grammar => return { g with grammar := ← fresh g.grammar .invalidValue (parsePath? text) }
  | .tree => return { g with tree := ← fresh g.tree .invalidValue (parsePath? text) }
  | .cursor => return { g with cursor := ← fresh g.cursor .invalidNumber (parseOffset? text) }
  | .choice => return { g with choice := ← fresh g.choice .invalidValue (parseChoice? text) }
  | .symbol => return { g with symbol := ← fresh g.symbol .invalidValue (some text) }

def settle (g : Given) : Except Refusal Given :=
  match g.pending with
  | none => .ok g
  | some (_, none) => .error .invalidValue
  | some (slot, some text) => store { g with pending := none } slot text

def setFlag (g : Given) (f : Flag) : Except Refusal Given := do
  let g ← g.settle
  match f with
  | .help => throw .help
  | .version => throw .version
  | .verbose => if g.verbose then throw .repeated else return { g with verbose := true }
  | .json => if g.json then throw .repeated else return { g with json := true }

def await (g : Given) (slot : Slot) : Except Refusal Given := do
  return { ← g.settle with pending := some (slot, none) }

def storeAttached (g : Given) (slot : Slot) (text : List Char) : Except Refusal Given := do
  (← g.settle).store slot (String.ofList text)

def long (verb : Option Verb) (g : Given) (body : List Char) : Except Refusal Given :=
  let value := body.dropWhile (· ≠ '=')
  match longSwitch? verb (String.ofList (body.takeWhile (· ≠ '='))), value with
  | none, _ => .error .unknownArgument
  | some (.flag f), [] => g.setFlag f
  | some (.flag _), _ :: _ => .error .unwantedValue
  | some (.slot s), [] => g.await s
  | some (.slot s), _ :: text => g.storeAttached s text

/-- Options by their letters, behind the hyphen. The first that takes a value takes the rest. -/
def letters (verb : Option Verb) (g : Given) : List Char → Except Refusal Given
  | [] => .ok g
  | c :: cs =>
    match shortSwitch? verb c with
    | none => .error .unknownArgument
    | some (.flag f) => do letters verb (← g.setFlag f) cs
    | some (.slot s) => match cs with
      | [] => g.await s
      | '=' :: text => g.storeAttached s text
      | text => g.storeAttached s text

def operand (verb : Verb) (g : Given) (text : String) : Except Refusal Given := do
  let taken := g.symbol.isSome || g.pending.any (·.1 = .symbol)
  if verb = .expand ∧ ¬ taken then
    return { ← g.settle with pending := some (.symbol, some text) }
  else throw .unknownArgument

def step (verb : Verb) (g : Given) (text : String) : Except Refusal Given :=
  if g.escaped then g.operand verb text
  else match text.toList with
    | ['-', '-'] => .ok { g with escaped := true }
    | '-' :: '-' :: body => g.long (some verb) body
    | '-' :: c :: cs => g.letters (some verb) (c :: cs)
    | _ => match g.pending with
      | some (slot, none) => .ok { g with pending := some (slot, some text) }
      | _ => g.operand verb text

def require {α : Type} : Option α → Except Refusal α
  | none => .error .missingArgument
  | some a => .ok a

def command (g : Given) : Verb → Except Refusal Command
  | .suggest => do
    return .suggest (← require g.grammar) (← require g.tree) (← require g.cursor)
      (g.choice.getD .all)
  | .rules => do return .rules (← require g.grammar)
  | .parents => do return .parents (← require g.grammar)
  | .expand => do return .expand (← require g.grammar) (← require g.symbol)

end Given

def parseBehind (verb : Verb) (outer : Given) (texts : List String) :
    Except Refusal Invocation := do
  let g ← (← texts.foldlM (Given.step verb) {}).settle
  return ⟨outer.verbose || g.verbose, outer.json || g.json, ← g.command verb⟩

def isCommandWord (text : String) : Bool := (Verb.ofWord? text).isSome || text = "help"

def helpOn : List String → Refusal
  | [] => .help
  | [text] => if isCommandWord text then .help else .unknownCommand
  | _ => .unknownCommand

def parseFrom (g : Given) : List String → Except Refusal Invocation
  | [] => .error (if g.verbose || g.json then .missingCommand else .noArguments)
  | text :: rest =>
    if g.escaped then
      .error (if isCommandWord text then .unknownArgument else .unknownCommand)
    else match Verb.ofWord? text with
      | some verb => parseBehind verb g rest
      | none =>
        if text = "help" then .error (helpOn rest)
        else match text.toList with
          | ['-', '-'] => parseFrom { g with escaped := true } rest
          | '-' :: '-' :: body => do parseFrom (← g.long none body) rest
          | '-' :: c :: cs => do parseFrom (← g.letters none (c :: cs)) rest
          | _ => .error .unknownCommand

def Invocation.parse (arguments : List String) : Except Refusal Invocation :=
  parseFrom {} arguments

end GrammarCompletion.CommandLine
