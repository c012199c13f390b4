import GrammarCompletion.Text.Basic

/-! A record of what a reader of grammar text tried, and the diagnosis drawn from it. The
diagnosis is the furthest offset at which a construct was tried in vain, with the constructs
expected there and those that a negative lookahead met there against its will. What is recorded and
when follows the parsing library, which is not part of this repository. -/

namespace GrammarCompletion.Ebnf

inductive Construct where
  | endOfInput
  | grammar
  | rule
  | ruleName
  | identifier
  | alternation
  | sequence
  | item
  | repetition
  | group
  | reference
  | literal
  | charClass
  | pattern
  deriving DecidableEq, Repr

namespace Construct

def all : List Construct :=
  [endOfInput, grammar, rule, ruleName, identifier, alternation, sequence, item, repetition,
    group, reference, literal, charClass, pattern]

def label : Construct → String
  | endOfInput => "EOI"
  | grammar => "grammar"
  | rule => "rule"
  | ruleName => "rule_name"
  | identifier => "identifier"
  | alternation => "alternation"
  | sequence => "sequence"
  | item => "item"
  | repetition => "repeat"
  | group => "group"
  | reference => "reference"
  | literal => "literal"
  | charClass => "char_class"
  | pattern => "pattern"

end Construct

/-- One try of a construct with the tries inside it, or the tries of a negative lookahead. -/
inductive Attempt where
  | entered (construct : Construct) (offset : Nat) (matched : Bool) (inner : List Attempt)
  | lookahead (inner : List Attempt)

structure Frontier where
  offset : Nat
  unexpected : List Construct
  expected : List Construct
  deriving DecidableEq, Repr

namespace Frontier

def start : Frontier := ⟨0, [], []⟩

def count (f : Frontier) (offset : Nat) : Nat :=
  if offset = f.offset then f.unexpected.length + f.expected.length else 0

def add (f : Frontier) (negated : Bool) (construct : Construct) : Frontier :=
  if negated then { f with unexpected := f.unexpected ++ [construct] }
  else { f with expected := f.expected ++ [construct] }

/-- Records that `construct` was tried in vain at `offset`, where the frontier was `before` when
the try began and is `f` now. The name stands for those recorded inside it at the same offset,
except that a single one of them says more and stays. -/
def record (before f : Frontier) (negated : Bool) (construct : Construct) (offset : Nat) :
    Frontier :=
  if f.count offset = before.count offset + 1 then f
  else if offset = f.offset then
    let kept : Frontier := if offset = before.offset then before else ⟨offset, [], []⟩
    add { f with
      unexpected := f.unexpected.take kept.unexpected.length
      expected := f.expected.take kept.expected.length } negated construct
  else if f.offset < offset then add ⟨offset, [], []⟩ negated construct
  else f

end Frontier

mutual

/-- The frontier after one more attempt. A construct is tried in vain if it does not match, or
inside a negative lookahead if it does. -/
def Attempt.note (negated : Bool) (f : Frontier) : Attempt → Frontier
  | .entered construct offset matched inner =>
    let after := noteAll negated f inner
    if matched = negated then Frontier.record f after negated construct offset else after
  | .lookahead inner => noteAll (!negated) f inner

def noteAll (negated : Bool) (f : Frontier) : List Attempt → Frontier
  | [] => f
  | attempt :: rest => noteAll negated (attempt.note negated f) rest

end

structure Fault where
  offset : Nat
  unexpected : List Construct
  expected : List Construct
  deriving DecidableEq, Repr

namespace Fault

def ofFrontier (f : Frontier) : Fault :=
  ⟨f.offset, Construct.all.filter (· ∈ f.unexpected), Construct.all.filter (· ∈ f.expected)⟩

def ofAttempts (attempts : List Attempt) : Fault :=
  ofFrontier (noteAll false Frontier.start attempts)

def span (fault : Fault) : Span := ⟨fault.offset, fault.offset⟩

def enumeration (names : List Construct) : String :=
  match names.map Construct.label with
  | [] => ""
  | [a] => a
  | [a, b] => a ++ " or " ++ b
  | labels => ", ".intercalate labels.dropLast ++ ", or " ++ labels.getLast?.getD ""

def message (fault : Fault) : String :=
  match fault.unexpected, fault.expected with
  | [], [] => "unknown parsing error"
  | [], expected => "expected " ++ enumeration expected
  | unexpected, [] => "unexpected " ++ enumeration unexpected
  | unexpected, expected =>
    "unexpected " ++ enumeration unexpected ++ "; expected " ++ enumeration expected

end Fault

end GrammarCompletion.Ebnf
