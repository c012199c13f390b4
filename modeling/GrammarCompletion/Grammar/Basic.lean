import GrammarCompletion.Grammar.Fault
import GrammarCompletion.Grammar.Rule

/-! Grammars: rule tables in definition order, with no name twice. Text and lists of rules give a
grammar only if there is a rule in it. -/

namespace GrammarCompletion

def firstRepeated? (seen : List String) : List String → Option String
  | [] => none
  | name :: names => if name ∈ seen then some name else firstRepeated? (name :: seen) names

theorem firstRepeated?_eq_none_iff {seen names : List String} :
    firstRepeated? seen names = none ↔ names.Nodup ∧ ∀ name ∈ names, name ∉ seen := by
  induction names generalizing seen with
  | nil => simp [firstRepeated?]
  | cons name names ih =>
    by_cases h : name ∈ seen
    · simp [firstRepeated?, h]
    · simp only [firstRepeated?, h, if_false, ih, List.nodup_cons, List.mem_cons, not_or]
      constructor
      · rintro ⟨hnodup, hnames⟩
        exact ⟨⟨fun hname => (hnames name hname).1 rfl, hnodup⟩,
          fun other hother => hother.elim (· ▸ h) fun hmem => (hnames other hmem).2⟩
      · rintro ⟨⟨hname, hnodup⟩, hseen⟩
        exact ⟨hnodup, fun other hother =>
          ⟨fun heq => hname (heq ▸ hother), hseen other (.inr hother)⟩⟩

@[ext] structure Grammar where
  rules : List Rule
  distinct : (rules.map Rule.name).Nodup

namespace Grammar

/-- The grammar of a list of rules. A name that repeats an earlier one is reported first. -/
def ofRules (rules : List Rule) : Except Fault Grammar :=
  match h : firstRepeated? [] (rules.map Rule.name) with
  | some name => .error (.duplicateRule name)
  | none =>
    if rules = [] then .error .noRules
    else .ok ⟨rules, (firstRepeated?_eq_none_iff.1 h).1⟩

variable (g : Grammar)

def size : Nat := g.rules.length

def names : List String := g.rules.map Rule.name

def alternatives? (name : String) : Option (List Alternative) :=
  (g.rules.find? (·.name = name)).map Rule.alternatives

/-- What a symbol means here: a rule name wins over the spelling of a terminal. -/
def sortOf? (symbol : Symbol) : Option SymbolSort :=
  if symbol ∈ g.names then some .nonterminal else terminalSort? symbol

end Grammar

end GrammarCompletion
