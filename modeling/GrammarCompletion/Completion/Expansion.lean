import GrammarCompletion.Completion.Fault
import GrammarCompletion.Grammar.Links
import GrammarCompletion.Terminal.Decoding

/-! The terminals that a symbol leads to. The walk goes depth first through all alternatives and
enters each rule once, so it ends on recursive grammars too. Terminals are then decoded; those
that cannot be are kept with the obstacle. -/

namespace GrammarCompletion

structure Walk where
  entered : List String
  terminals : List (Symbol × SymbolSort)
  deriving DecidableEq, Repr

namespace Walk

def enter (w : Walk) (rule : String) : Walk := { w with entered := w.entered ++ [rule] }

def meet (w : Walk) (terminal : Symbol) (sort : SymbolSort) : Walk :=
  if (terminal, sort) ∈ w.terminals then w
  else { w with terminals := w.terminals ++ [(terminal, sort)] }

def unentered (g : Grammar) (w : Walk) : Nat := g.names.countP (· ∉ w.entered)

theorem countP_lt_countP {α : Type} {p q : α → Bool} {a : α} {l : List α}
    (himp : ∀ x, p x = true → q x = true) (hmem : a ∈ l) (hp : p a = false) (hq : q a = true) :
    l.countP p < l.countP q := by
  induction l with
  | nil => simp at hmem
  | cons x l ih =>
    have hle : l.countP p ≤ l.countP q := List.countP_mono_left fun y _ => himp y
    rcases List.mem_cons.1 hmem with rfl | hmem
    · simp only [List.countP_cons, hp, hq]
      simp
      omega
    · have hlt := ih hmem
      rw [List.countP_cons, List.countP_cons]
      by_cases hpx : p x = true
      · rw [if_pos hpx, if_pos (himp x hpx)]
        omega
      · rw [if_neg hpx]
        split <;> omega

theorem unentered_enter_lt {g : Grammar} {w : Walk} {rule : String} (hrule : rule ∈ g.names)
    (hnew : rule ∉ w.entered) : (w.enter rule).unentered g < w.unentered g :=
  countP_lt_countP (by simp_all [enter]) hrule (by simp [enter]) (by simpa using hnew)

end Walk

namespace Grammar

variable (g : Grammar)

def symbolsOf (name : String) : List Symbol := ((g.alternatives? name).getD []).flatten

/-- Visits the symbols in turn. What a newly entered rule mentions comes first. -/
def visit : List Symbol → Walk → Walk
  | [], w => w
  | s :: pending, w =>
    if s ∈ g.names then
      if s ∈ w.entered then visit pending w
      else visit (g.symbolsOf s ++ pending) (w.enter s)
    else match terminalSort? s with
      | none => visit pending w
      | some sort => visit pending (w.meet s sort)
termination_by pending w => (w.unentered g, pending.length)
decreasing_by
  · exact Prod.Lex.right _ (Nat.lt_succ_self _)
  · exact Prod.Lex.left _ _ (Walk.unentered_enter_lt ‹_› ‹_›)
  · exact Prod.Lex.right _ (Nat.lt_succ_self _)
  · have : (w.meet s sort).unentered g = w.unentered g := by
      unfold Walk.meet; split <;> rfl
    rw [this]
    exact Prod.Lex.right _ (Nat.lt_succ_self _)

def walk (symbol : Symbol) : Walk := g.visit [symbol] ⟨[], []⟩

end Grammar

structure Unlisted where
  symbol : Symbol
  obstacle : Terminal.Obstacle
  deriving DecidableEq, Repr

namespace Unlisted

def message (u : Unlisted) : String := u.obstacle.message u.symbol

end Unlisted

structure Expansion where
  entered : List String
  literals : List String
  unlisted : List Unlisted
  deriving DecidableEq, Repr

namespace Expansion

def isEmpty (e : Expansion) : Bool := e.literals.isEmpty && e.unlisted.isEmpty

/-- The decoded terminals of a walk. A string that several terminals spell is listed once. -/
def ofWalk (w : Walk) : Expansion where
  entered := w.entered
  literals := (w.terminals.flatMap fun (symbol, sort) =>
    match Terminal.spellings symbol sort with
    | .ok texts => texts
    | .error _ => []).eraseDups
  unlisted := w.terminals.filterMap fun (symbol, sort) =>
    match Terminal.spellings symbol sort with
    | .ok _ => none
    | .error obstacle => some ⟨symbol, obstacle⟩

end Expansion

def LinkedGrammar.expand (g : LinkedGrammar) (symbol : Symbol) :
    Except Completion.Fault Expansion :=
  if (g.grammar.sortOf? symbol).isNone then .error (.unknownSymbol symbol)
  else .ok (.ofWalk (g.grammar.walk symbol))

end GrammarCompletion
