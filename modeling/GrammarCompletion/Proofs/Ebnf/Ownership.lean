import GrammarCompletion.Proofs.Ebnf.Numbering

/-! Where the made rules are mentioned. A phrase with the rules made for it owns a run of numbers. It
mentions, besides what is written in it, only made rules of this run, a made rule no later one than
itself; and each of them stands in one place only, in the phrase itself or in one later rule of the run.
Phrases that follow each other own runs that follow each other, and one more rule made from a phrase
takes over all that the phrase mentions. -/

namespace GrammarCompletion.Ebnf

section Mentioners

def mentioners (symbol : Symbol) (rules : List Rule) : List String :=
  (rules.filter fun r => r.name ≠ symbol ∧ symbol ∈ r.symbols).map Rule.name

variable {symbol : Symbol}

theorem mentioners_append (rules rules' : List Rule) :
    mentioners symbol (rules ++ rules') = mentioners symbol rules ++ mentioners symbol rules' := by
  rw [mentioners, List.filter_append, List.map_append]
  rfl

theorem mentioners_eq_nil {rules : List Rule} (h : ∀ rule ∈ rules, symbol ∉ rule.symbols) :
    mentioners symbol rules = [] := by
  rw [mentioners, List.map_eq_nil_iff, List.filter_eq_nil_iff]
  intro rule hrule
  simp [h rule hrule]

theorem mentioners_of_name {rule : Rule} (h : rule.name = symbol) : mentioners symbol [rule] = [] := by
  simp [mentioners, h]

theorem mentioners_of_mem {rule : Rule} (hname : rule.name ≠ symbol) (h : symbol ∈ rule.symbols) :
    mentioners symbol [rule] = [rule.name] := by
  simp [mentioners, hname, h]

end Mentioners

section Runs

variable (owner : String) (written : Symbol → Prop)

structure Fresh : Prop where
  number : ∀ m n, madeName owner m = madeName owner n → m = n
  apart : ∀ symbol, written symbol → ∀ n, symbol ≠ madeName owner n

def Within (m n : Nat) (symbol : Symbol) : Prop :=
  written symbol ∨ ∃ i, m < i ∧ i ≤ n ∧ symbol = madeName owner i

/-- The rule stands in one place: among the symbols, or in one of the rules, which is made later. -/
def StandsOnce (symbols : List Symbol) (rules : List Rule) (n i : Nat) : Prop :=
  (madeName owner i ∈ symbols ∧ mentioners (madeName owner i) rules = []) ∨
    (madeName owner i ∉ symbols ∧ ∃ m, i < m ∧ m ≤ n + rules.length ∧
      mentioners (madeName owner i) rules = [madeName owner m])

/-- The symbols of a phrase own the rules made for it, where `n` rules are made before them. -/
structure Owns (n : Nat) (symbols : List Symbol) (rules : List Rule) : Prop where
  symbols_within : ∀ s ∈ symbols, Within owner written n (n + rules.length) s
  rules_within : ∀ rule ∈ rules, ∃ m, n < m ∧ m ≤ n + rules.length ∧ rule.name = madeName owner m ∧
    ∀ s ∈ rule.symbols, Within owner written n m s
  once : ∀ i, n < i → i ≤ n + rules.length → StandsOnce owner symbols rules n i

variable {owner written}

theorem Within.mono {m m' n n' : Nat} {symbol : Symbol} (h : Within owner written m n symbol)
    (hm : m' ≤ m) (hn : n ≤ n') : Within owner written m' n' symbol := by
  rcases h with h | ⟨i, hlow, hhigh, rfl⟩
  · exact .inl h
  · exact .inr ⟨i, by omega, by omega, rfl⟩

theorem Fresh.of_within (hfresh : Fresh owner written) {m n i : Nat}
    (h : Within owner written m n (madeName owner i)) : m < i ∧ i ≤ n := by
  rcases h with h | ⟨j, hlow, hhigh, heq⟩
  · exact absurd rfl (hfresh.apart _ h i)
  · rw [hfresh.number i j heq]
    exact ⟨hlow, hhigh⟩

namespace Owns

variable {n : Nat} {symbols symbols' : List Symbol} {rules rules' : List Rule}

theorem not_mem_symbols (h : Owns owner written n symbols rules) (hfresh : Fresh owner written)
    {i : Nat} (hi : ¬ (n < i ∧ i ≤ n + rules.length)) : madeName owner i ∉ symbols :=
  fun hmem => hi (hfresh.of_within (h.symbols_within _ hmem))

theorem mentioners_eq_nil (h : Owns owner written n symbols rules) (hfresh : Fresh owner written)
    {i : Nat} (hi : ¬ (n < i ∧ i ≤ n + rules.length)) :
    mentioners (madeName owner i) rules = [] := by
  refine Ebnf.mentioners_eq_nil fun rule hrule hmem => hi ?_
  obtain ⟨m, _, hm, _, hsymbols⟩ := h.rules_within rule hrule
  exact hfresh.of_within ((hsymbols _ hmem).mono (Nat.le_refl n) hm)

theorem single {symbol : Symbol} (h : written symbol) : Owns owner written n [symbol] [] where
  symbols_within := by
    rw [List.forall_mem_singleton]
    exact .inl h
  rules_within := by simp
  once := by
    intro i hlow hhigh
    rw [List.length_nil] at hhigh
    omega

theorem nil : Owns owner written n [] [] where
  symbols_within := by simp
  rules_within := by simp
  once := by
    intro i hlow hhigh
    rw [List.length_nil] at hhigh
    omega

theorem append (hfresh : Fresh owner written) (h : Owns owner written n symbols rules)
    (h' : Owns owner written (n + rules.length) symbols' rules') :
    Owns owner written n (symbols ++ symbols') (rules ++ rules') where
  symbols_within := by
    rw [List.forall_mem_append, List.length_append]
    exact ⟨fun s hs => (h.symbols_within s hs).mono (by omega) (by omega),
      fun s hs => (h'.symbols_within s hs).mono (by omega) (by omega)⟩
  rules_within := by
    rw [List.forall_mem_append, List.length_append]
    constructor
    · intro rule hrule
      obtain ⟨m, hlow, hhigh, hname, hsymbols⟩ := h.rules_within rule hrule
      exact ⟨m, hlow, by omega, hname, hsymbols⟩
    · intro rule hrule
      obtain ⟨m, hlow, hhigh, hname, hsymbols⟩ := h'.rules_within rule hrule
      exact ⟨m, by omega, by omega, hname, fun s hs => (hsymbols s hs).mono (by omega) (by omega)⟩
  once := by
    intro i hlow hhigh
    rw [List.length_append] at hhigh
    unfold StandsOnce
    rw [List.mem_append, mentioners_append, List.length_append]
    by_cases hi : i ≤ n + rules.length
    · -- The number belongs to the first run, so nothing behind it counts.
      have hout : ¬ (n + rules.length < i ∧ i ≤ n + rules.length + rules'.length) := by omega
      rw [h'.mentioners_eq_nil hfresh hout, List.append_nil]
      have hnot := h'.not_mem_symbols hfresh hout
      rcases h.once i hlow hi with ⟨hmem, hnil⟩ | ⟨hmem, m, him, hm, hone⟩
      · exact .inl ⟨.inl hmem, hnil⟩
      · exact .inr ⟨by simp [hmem, hnot], m, him, by omega, hone⟩
    · -- It belongs to the second run, so nothing in front of it counts.
      have hout : ¬ (n < i ∧ i ≤ n + rules.length) := by omega
      rw [h.mentioners_eq_nil hfresh hout, List.nil_append]
      have hnot := h.not_mem_symbols hfresh hout
      rcases h'.once i (by omega) (by omega) with ⟨hmem, hnil⟩ | ⟨hmem, m, him, hm, hone⟩
      · exact .inl ⟨.inr hmem, hnil⟩
      · exact .inr ⟨by simp [hmem, hnot], m, him, by omega, hone⟩

theorem make (hfresh : Fresh owner written) (h : Owns owner written n symbols rules)
    {self : Symbol} (hself : self = madeName owner (n + rules.length + 1))
    {alternatives : List Alternative} (hall : ∀ s ∈ symbols, s ∈ alternatives.flatten)
    (honly : ∀ s ∈ alternatives.flatten, s ∈ symbols ∨ s = self) :
    Owns owner written n [self] (rules ++ [⟨self, alternatives⟩]) where
  symbols_within := by
    rw [List.forall_mem_singleton, List.length_append, List.length_singleton]
    exact .inr ⟨n + rules.length + 1, by omega, by omega, hself⟩
  rules_within := by
    rw [List.forall_mem_append, List.forall_mem_singleton, List.length_append,
      List.length_singleton]
    constructor
    · intro rule hrule
      obtain ⟨m, hlow, hhigh, hname, hsymbols⟩ := h.rules_within rule hrule
      exact ⟨m, hlow, by omega, hname, hsymbols⟩
    · refine ⟨n + rules.length + 1, by omega, by omega, hself, fun s hs => ?_⟩
      rcases honly s hs with hs | rfl
      · exact (h.symbols_within s hs).mono (by omega) (by omega)
      · exact .inr ⟨n + rules.length + 1, by omega, by omega, hself⟩
  once := by
    intro i hlow hhigh
    rw [List.length_append, List.length_singleton] at hhigh
    unfold StandsOnce
    rw [List.mem_singleton, mentioners_append, List.length_append, List.length_singleton]
    by_cases hi : i ≤ n + rules.length
    · -- What stood among the symbols stands in the new rule, and only there.
      have hne : self ≠ madeName owner i := by
        rintro rfl
        have := hfresh.number _ _ hself
        omega
      refine .inr ⟨hne.symm, ?_⟩
      rcases h.once i hlow hi with ⟨hmem, hnil⟩ | ⟨hmem, m, him, hm, hone⟩
      · refine ⟨n + rules.length + 1, by omega, by omega, ?_⟩
        rw [hnil, List.nil_append, mentioners_of_mem hne (hall _ hmem), hself]
      · refine ⟨m, him, by omega, ?_⟩
        have hnot : ∀ rule ∈ [(⟨self, alternatives⟩ : Rule)], madeName owner i ∉ rule.symbols := by
          rw [List.forall_mem_singleton]
          intro hs
          exact (honly _ hs).elim hmem hne.symm
        rw [hone, Ebnf.mentioners_eq_nil hnot, List.append_nil]
    · -- The new rule mentions itself at most, which does not count.
      obtain rfl : i = n + rules.length + 1 := by omega
      refine .inl ⟨hself.symm, ?_⟩
      rw [h.mentioners_eq_nil hfresh (by omega), mentioners_of_name hself, List.append_nil]

end Owns

end Runs

section Phrases

inductive Item.Writes : Item → Symbol → Prop where
  | reference {name : String} {operator : Option Repetition} :
      Writes (.reference name operator) name
  | terminal {lexeme : String} {operator : Option Repetition} :
      Writes (.terminal lexeme operator) lexeme
  | group {alternatives : List (List Item)} {operator : Option Repetition} {items : List Item}
      {item : Item} {symbol : Symbol} (hitems : items ∈ alternatives) (hitem : item ∈ items)
      (h : Writes item symbol) : Writes (.group alternatives operator) symbol

variable {owner : String} {written : Symbol → Prop}

theorem eq_of_mem_flatten_alternatives (r : Repetition) (symbol self s : Symbol) :
    s ∈ (r.alternatives symbol self).flatten → s = symbol ∨ s = self := by
  cases r <;> simp [Repetition.alternatives] <;> tauto

theorem mem_flatten_alternatives (r : Repetition) (symbol self : Symbol) :
    symbol ∈ (r.alternatives symbol self).flatten := by
  cases r <;> simp [Repetition.alternatives]

theorem Owns.repeated (hfresh : Fresh owner written) (item : Item) (n : Nat)
    (h : Owns owner written n [item.bare.symbolFrom owner n]
      (rulesFrom owner n item.bare.composites)) :
    Owns owner written n [item.symbolFrom owner n] (rulesFrom owner n item.composites) := by
  rw [item.composites_eq]
  cases hr : item.repetition with
  | none =>
    rw [Item.bare_eq_self hr] at h ⊢
    rwa [repetitionsOf_none, List.append_nil]
  | some r =>
    rw [repetitionsOf_some, rulesFrom_append, rulesFrom_repeated, Item.symbolFrom_of_repetition hr]
    refine h.make hfresh (by rw [length_rulesFrom]) ?_ ?_
    · rw [List.forall_mem_singleton]
      exact mem_flatten_alternatives r _ _
    · intro s hs
      rw [List.mem_singleton]
      exact eq_of_mem_flatten_alternatives r _ _ s hs

mutual

theorem Item.owns (hfresh : Fresh owner written) : ∀ (item : Item) (n : Nat),
    (∀ s, item.Writes s → written s) →
    Owns owner written n [item.symbolFrom owner n] (rulesFrom owner n item.composites)
  | .reference name operator, n, hwritten =>
    Owns.repeated hfresh (.reference name operator) n (.single (hwritten name .reference))
  | .terminal lexeme operator, n, hwritten =>
    Owns.repeated hfresh (.terminal lexeme operator) n (.single (hwritten lexeme .terminal))
  | .group alternatives operator, n, hwritten => by
    have hinner := owns_choiceFrom hfresh alternatives n
      fun items hitems item hitem s hs => hwritten s (.group hitems hitem hs)
    refine Owns.repeated hfresh (.group alternatives operator) n ?_
    rw [Item.bare, Item.symbolFrom_group, Item.composites_group, rulesFrom_append, rulesFrom_group]
    refine hinner.make hfresh ?_ (fun s hs => hs) (fun s hs => .inl hs)
    rw [length_rulesFrom]

theorem owns_sequenceFrom (hfresh : Fresh owner written) : ∀ (items : List Item) (n : Nat),
    (∀ item ∈ items, ∀ s, item.Writes s → written s) →
    Owns owner written n (sequenceFrom owner n items)
      (rulesFrom owner n (compositesOfSequence items))
  | [], _, _ => .nil
  | item :: items, n, hwritten => by
    obtain ⟨hitem, hitems⟩ := List.forall_mem_cons.1 hwritten
    have hhead := item.owns hfresh n hitem
    have htail := owns_sequenceFrom hfresh items (n + item.composites.length) hitems
    rw [compositesOfSequence, rulesFrom_append]
    exact hhead.append hfresh (by rwa [length_rulesFrom])

theorem owns_choiceFrom (hfresh : Fresh owner written) :
    ∀ (alternatives : List (List Item)) (n : Nat),
    (∀ items ∈ alternatives, ∀ item ∈ items, ∀ s, item.Writes s → written s) →
    Owns owner written n (choiceFrom owner n alternatives).flatten
      (rulesFrom owner n (compositesOfChoice alternatives))
  | [], _, _ => .nil
  | items :: rest, n, hwritten => by
    obtain ⟨hitems, hrest⟩ := List.forall_mem_cons.1 hwritten
    have hhead := owns_sequenceFrom hfresh items n hitems
    have htail := owns_choiceFrom hfresh rest (n + (compositesOfSequence items).length) hrest
    rw [compositesOfChoice, rulesFrom_append, choiceFrom, List.flatten_cons]
    exact hhead.append hfresh (by rwa [length_rulesFrom])

end

end Phrases

end GrammarCompletion.Ebnf
