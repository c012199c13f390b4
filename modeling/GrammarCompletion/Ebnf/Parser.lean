import GrammarCompletion.Ebnf.Attempt
import GrammarCompletion.Ebnf.Layout
import GrammarCompletion.Ebnf.Document
import GrammarCompletion.Text.Basic

/-! Parsers of grammar text by ordered choice. A parser answers a value with the place behind it,
or nothing, and in both cases what it attempted. Attempts are only collected: no parser looks at
them. The combinators follow the parsing library, which is not part of this repository. -/

namespace GrammarCompletion.Ebnf

structure Cursor where
  offset : Nat
  rest : List Char
  deriving DecidableEq, Repr

def Cursor.past (c : Cursor) (w : List Char) : Cursor :=
  ⟨c.offset + Text.byteCount w, c.rest.drop w.length⟩

structure Outcome (α : Type) where
  result : Option (α × Cursor)
  attempts : List Attempt

def Parser (α : Type) := Cursor → Outcome α

namespace Parser

variable {α β : Type}

protected def pure (a : α) : Parser α := fun c => ⟨some (a, c), []⟩

protected def map (f : α → β) (p : Parser α) : Parser β := fun c =>
  let outcome := p c
  ⟨outcome.result.map fun (a, d) => (f a, d), outcome.attempts⟩

protected def bind (p : Parser α) (f : α → Parser β) : Parser β := fun c =>
  match p c with
  | ⟨none, attempts⟩ => ⟨none, attempts⟩
  | ⟨some (a, d), attempts⟩ =>
    let next := f a d
    ⟨next.result, attempts ++ next.attempts⟩

instance : Monad Parser where
  map := Parser.map
  pure := Parser.pure
  bind := Parser.bind

def fail : Parser α := fun _ => ⟨none, []⟩

def orElse (p q : Parser α) : Parser α := fun c =>
  match p c with
  | ⟨none, attempts⟩ =>
    let second := q c
    ⟨second.result, attempts ++ second.attempts⟩
  | done => done

instance : OrElse (Parser α) := ⟨fun p q => p.orElse (q ())⟩

def lexeme (recognise : List Char → Option (List Char)) : Parser (List Char) := fun c =>
  ⟨(recognise c.rest).map fun w => (w, c.past w), []⟩

def word (text : String) : Parser Unit := do
  let _ ← lexeme (word? text.toList)

def skipLayout : Parser Unit := fun c => ⟨some ((), c.past (Ebnf.layout c.rest)), []⟩

def atEnd : Parser Unit := fun c => ⟨if c.rest = [] then some ((), c) else none, []⟩

def named (construct : Construct) (p : Parser α) : Parser α := fun c =>
  let outcome := p c
  ⟨outcome.result, [.entered construct c.offset outcome.result.isSome outcome.attempts]⟩

/-- Stays in place, if the parser answers nothing here. -/
def absent (p : Parser α) : Parser Unit := fun c =>
  let outcome := p c
  ⟨if outcome.result.isNone then some ((), c) else none, [.lookahead outcome.attempts]⟩

def optional (p : Parser α) : Parser (Option α) := fun c =>
  match p c with
  | ⟨none, attempts⟩ => ⟨some (none, c), attempts⟩
  | ⟨some (a, d), attempts⟩ => ⟨some (some a, d), attempts⟩

def repeatUpTo (p : Parser α) : Nat → Parser (List α)
  | 0 => pure []
  | bound + 1 => do
    match ← optional p with
    | none => pure []
    | some a => (a :: ·) <$> repeatUpTo p bound

/-- The values of the parser as often as it answers one, with layout between them. Layout that
no further value follows is not taken. No more values can follow than there are characters. -/
def spaced (p : Parser α) : Parser (List α) := fun c =>
  (do
    match ← optional p with
    | none => pure []
    | some a => (a :: ·) <$> repeatUpTo (do skipLayout; p) c.rest.length : Parser (List α)) c

end Parser

end GrammarCompletion.Ebnf
