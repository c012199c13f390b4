import GrammarCompletion.Proofs.Completion.Expansion
import GrammarCompletion.Proofs.Grammar.Linking

/-! The walk as a recursion. A call at a symbol that enters a rule makes a call for each symbol that
the rule mentions, in turn, and each of them starts from what the one before it has left. All calls
end, whatever has been visited before; each rule is entered once, and where every mentioned symbol has
a meaning, only the first call can find one without. -/

namespace GrammarCompletion

inductive Branch where
  | unknown
  | terminal
  | again
  | entry
  deriving DecidableEq, Repr

structure Call where
  symbol : Symbol
  branch : Branch
  deriving DecidableEq, Repr

def entriesOf (calls : List Call) : List String :=
  (calls.filter (·.branch = .entry)).map Call.symbol

theorem entriesOf_entry (s : Symbol) (calls : List Call) :
    entriesOf (⟨s, .entry⟩ :: calls) = s :: entriesOf calls := rfl

theorem entriesOf_append (first second : List Call) :
    entriesOf (first ++ second) = entriesOf first ++ entriesOf second := by
  rw [entriesOf, List.filter_append, List.map_append]
  rfl

namespace Walk

def visited (w : Walk) : List Symbol := w.entered ++ w.terminals.map Prod.fst

theorem mem_visited_iff {w : Walk} {s : Symbol} :
    s ∈ w.visited ↔ s ∈ w.entered ∨ ∃ sort, (s, sort) ∈ w.terminals := by
  simp [visited]

theorem mem_visited_enter {w : Walk} {rule : String} {s : Symbol} :
    s ∈ (w.enter rule).visited ↔ s ∈ w.visited ∨ s = rule := by
  simp only [mem_visited_iff, enter, List.mem_append, List.mem_singleton, or_right_comm]

theorem mem_visited_meet {w : Walk} {terminal s : Symbol} {sort : SymbolSort} :
    s ∈ (w.meet terminal sort).visited ↔ s ∈ w.visited ∨ s = terminal := by
  simp only [mem_visited_iff, entered_meet, mem_terminals_meet, Prod.mk.injEq, exists_or,
    exists_and_left, exists_eq, and_true, or_assoc]

theorem terminals_meet_prefix (w : Walk) (terminal : Symbol) (sort : SymbolSort) :
    w.terminals <+: (w.meet terminal sort).terminals := by
  unfold meet
  split
  · exact List.prefix_refl _
  · exact List.prefix_append _ _

end Walk

namespace Grammar

/-- The calls made for the symbols in turn, in the order in which they begin: behind each call stand
those made inside it. -/
inductive Calls (g : Grammar) : List Symbol → Walk → List Call → Walk → Prop where
  | nil {w : Walk} : Calls g [] w [] w
  | unknown {s : Symbol} {pending : List Symbol} {w w' : Walk} {calls : List Call}
      (hnone : g.sortOf? s = none) (rest : Calls g pending w calls w') :
      Calls g (s :: pending) w (⟨s, .unknown⟩ :: calls) w'
  | terminal {s : Symbol} {sort : SymbolSort} {pending : List Symbol} {w w' : Walk}
      {calls : List Call} (hterminal : g.IsTerminalOf s sort)
      (rest : Calls g pending (w.meet s sort) calls w') :
      Calls g (s :: pending) w (⟨s, .terminal⟩ :: calls) w'
  | again {s : Symbol} {pending : List Symbol} {w w' : Walk} {calls : List Call}
      (hrule : s ∈ g.names) (hentered : s ∈ w.entered) (rest : Calls g pending w calls w') :
      Calls g (s :: pending) w (⟨s, .again⟩ :: calls) w'
  | entry {s : Symbol} {pending : List Symbol} {w mid w' : Walk} {below calls : List Call}
      (hrule : s ∈ g.names) (hnew : s ∉ w.entered)
      (inner : Calls g (g.symbolsOf s) (w.enter s) below mid) (rest : Calls g pending mid calls w') :
      Calls g (s :: pending) w (⟨s, .entry⟩ :: (below ++ calls)) w'

variable {g : Grammar} {pending : List Symbol} {w w' : Walk} {calls : List Call}

section Termination

theorem Calls.exists_of_append {first second : List Symbol}
    (h : g.Calls (first ++ second) w calls w') :
    ∃ before mid after, g.Calls first w before mid ∧ g.Calls second mid after w' ∧
      calls = before ++ after := by
  induction first generalizing w calls with
  | nil => exact ⟨[], w, calls, .nil, h, rfl⟩
  | cons s first ih =>
    rw [List.cons_append] at h
    cases h with
    | unknown hnone rest =>
      obtain ⟨before, mid, after, hfirst, hsecond, rfl⟩ := ih rest
      exact ⟨_, mid, after, .unknown hnone hfirst, hsecond, rfl⟩
    | terminal hterminal rest =>
      obtain ⟨before, mid, after, hfirst, hsecond, rfl⟩ := ih rest
      exact ⟨_, mid, after, .terminal hterminal hfirst, hsecond, rfl⟩
    | again hrule hentered rest =>
      obtain ⟨before, mid, after, hfirst, hsecond, rfl⟩ := ih rest
      exact ⟨_, mid, after, .again hrule hentered hfirst, hsecond, rfl⟩
    | entry hrule hnew inner rest =>
      obtain ⟨before, mid, after, hfirst, hsecond, rfl⟩ := ih rest
      refine ⟨_, mid, after, .entry hrule hnew inner hfirst, hsecond, ?_⟩
      rw [List.cons_append, List.append_assoc]

/-- From every state the calls end, in the state that the visits in turn lead to. Either there are
fewer rules to enter than before, or as many and one symbol less. -/
theorem exists_calls (g : Grammar) (pending : List Symbol) (w : Walk) :
    ∃ calls, g.Calls pending w calls (g.visit pending w) := by
  fun_induction g.visit pending w with
  | case1 w => exact ⟨[], .nil⟩
  | case2 s pending w hrule hentered ih =>
    obtain ⟨calls, hcalls⟩ := ih
    exact ⟨_, .again hrule hentered hcalls⟩
  | case3 s pending w hrule hnew ih =>
    obtain ⟨calls, hcalls⟩ := ih
    obtain ⟨below, mid, after, hinner, hrest, _⟩ := hcalls.exists_of_append
    exact ⟨_, .entry hrule hnew hinner hrest⟩
  | case4 s pending w hrule hsort ih =>
    obtain ⟨calls, hcalls⟩ := ih
    exact ⟨_, .unknown (sortOf?_eq_none_iff.2 ⟨hrule, hsort⟩) hcalls⟩
  | case5 s pending w hrule sort hsort ih =>
    obtain ⟨calls, hcalls⟩ := ih
    exact ⟨_, .terminal (isTerminalOf_iff.2 ⟨hrule, hsort⟩) hcalls⟩

theorem Calls.unique {others : List Call} {w'' : Walk} (h : g.Calls pending w calls w')
    (h' : g.Calls pending w others w'') : calls = others ∧ w' = w'' := by
  induction h generalizing others w'' with
  | nil =>
    cases h'
    exact ⟨rfl, rfl⟩
  | unknown hnone _ ih =>
    cases h' with
    | unknown _ rest =>
      obtain ⟨rfl, rfl⟩ := ih rest
      exact ⟨rfl, rfl⟩
    | terminal hterminal => exact absurd (hterminal.1.symm.trans hnone) (Option.some_ne_none _)
    | again hrule | entry hrule => exact absurd hrule (sortOf?_eq_none_iff.1 hnone).1
  | terminal hterminal _ ih =>
    cases h' with
    | unknown hnone => exact absurd (hterminal.1.symm.trans hnone) (Option.some_ne_none _)
    | terminal hterminal' rest =>
      obtain rfl := Option.some.inj (hterminal.1.symm.trans hterminal'.1)
      obtain ⟨rfl, rfl⟩ := ih rest
      exact ⟨rfl, rfl⟩
    | again hrule | entry hrule => exact absurd hrule (isTerminalOf_iff.1 hterminal).1
  | again hrule hentered _ ih =>
    cases h' with
    | unknown hnone => exact absurd hrule (sortOf?_eq_none_iff.1 hnone).1
    | terminal hterminal => exact absurd hrule (isTerminalOf_iff.1 hterminal).1
    | again _ _ rest =>
      obtain ⟨rfl, rfl⟩ := ih rest
      exact ⟨rfl, rfl⟩
    | entry _ hnew => exact absurd hentered hnew
  | entry hrule hnew _ _ ihinner ihrest =>
    cases h' with
    | unknown hnone => exact absurd hrule (sortOf?_eq_none_iff.1 hnone).1
    | terminal hterminal => exact absurd hrule (isTerminalOf_iff.1 hterminal).1
    | again _ hentered => exact absurd hentered hnew
    | entry _ _ inner rest =>
      obtain ⟨rfl, rfl⟩ := ihinner inner
      obtain ⟨rfl, rfl⟩ := ihrest rest
      exact ⟨rfl, rfl⟩

end Termination

section Growth

theorem Calls.entered_eq (h : g.Calls pending w calls w') :
    w'.entered = w.entered ++ entriesOf calls := by
  induction h with
  | nil => exact (List.append_nil _).symm
  | unknown _ _ ih | again _ _ _ ih => exact ih
  | terminal _ _ ih =>
    rw [Walk.entered_meet] at ih
    exact ih
  | entry _ _ _ _ ihinner ihrest =>
    rw [ihrest, ihinner, Walk.enter, entriesOf_entry, entriesOf_append]
    simp

theorem Calls.nodup_entered (h : g.Calls pending w calls w') :
    (entriesOf calls).Nodup ∧ ∀ rule ∈ entriesOf calls, rule ∉ w.entered := by
  induction h with
  | nil => exact ⟨List.nodup_nil, by simp [entriesOf]⟩
  | unknown _ _ ih | again _ _ _ ih => exact ih
  | terminal _ _ ih =>
    rw [Walk.entered_meet] at ih
    exact ih
  | @entry s _ w mid _ below calls _ hnew inner _ ihinner ihrest =>
    obtain ⟨hinner, hinnernew⟩ := ihinner
    obtain ⟨hrest, hrestnew⟩ := ihrest
    have hmid : mid.entered = w.entered ++ s :: entriesOf below := by
      rw [inner.entered_eq, Walk.enter]
      simp
    simp only [hmid, List.mem_append, List.mem_cons, not_or] at hrestnew
    simp only [Walk.enter, List.mem_append, List.mem_singleton, not_or] at hinnernew
    rw [entriesOf_entry, entriesOf_append, List.nodup_cons, List.nodup_append]
    refine ⟨⟨?_, hinner, hrest, ?_⟩, ?_⟩
    · rw [List.mem_append]
      rintro (hs | hs)
      · exact (hinnernew s hs).2 rfl
      · exact (hrestnew s hs).2.1 rfl
    · rintro rule hrule other hother rfl
      exact (hrestnew rule hother).2.2 hrule
    · rw [List.forall_mem_cons, List.forall_mem_append]
      exact ⟨hnew, fun rule hrule => (hinnernew rule hrule).1, fun rule hrule => (hrestnew rule hrule).1⟩

theorem Calls.terminals_prefix (h : g.Calls pending w calls w') : w.terminals <+: w'.terminals := by
  induction h with
  | nil => exact List.prefix_refl _
  | unknown _ _ ih | again _ _ _ ih => exact ih
  | terminal _ _ ih => exact (Walk.terminals_meet_prefix _ _ _).trans ih
  | entry _ _ _ _ ihinner ihrest => exact ihinner.trans ihrest

theorem Calls.mem_visited_iff (h : g.Calls pending w calls w') {t : Symbol} :
    t ∈ w'.visited ↔
      t ∈ w.visited ∨ ∃ call ∈ calls, call.symbol = t ∧ call.branch ≠ .unknown := by
  induction h with
  | nil => simp
  | unknown _ _ ih =>
    rw [ih]
    simp
  | terminal _ _ ih =>
    rw [ih, Walk.mem_visited_meet]
    simp [or_assoc, eq_comm]
  | @again s _ w _ _ _ hentered _ ih =>
    have hs : s ∈ w.visited := List.mem_append_left _ hentered
    rw [ih]
    constructor
    · rintro (ht | ⟨call, hcall, ht⟩)
      · exact .inl ht
      · exact .inr ⟨call, List.mem_cons_of_mem _ hcall, ht⟩
    · rintro (ht | ⟨call, hcall, rfl, hbranch⟩)
      · exact .inl ht
      · rcases List.mem_cons.1 hcall with rfl | hcall
        · exact .inl hs
        · exact .inr ⟨call, hcall, rfl, hbranch⟩
  | entry _ _ _ _ ihinner ihrest =>
    rw [ihrest, ihinner, Walk.mem_visited_enter]
    simp [or_assoc, eq_comm, or_and_right, exists_or]

end Growth

section Reached

theorem Calls.reaches (h : g.Calls pending w calls w') :
    ∀ call ∈ calls, ∃ s ∈ pending, g.Reaches s call.symbol := by
  -- A call for a later symbol is one for the whole list.
  have hlater : ∀ {s : Symbol} {pending : List Symbol} {call : Call},
      (∃ t ∈ pending, g.Reaches t call.symbol) → ∃ t ∈ s :: pending, g.Reaches t call.symbol :=
    fun ⟨t, ht, hreaches⟩ => ⟨t, List.mem_cons_of_mem _ ht, hreaches⟩
  induction h with
  | nil => simp
  | unknown _ _ ih | terminal _ _ ih | again _ _ _ ih =>
    rw [List.forall_mem_cons]
    exact ⟨⟨_, List.mem_cons_self, .refl⟩, fun call hcall => hlater (ih call hcall)⟩
  | entry _ _ _ _ ihinner ihrest =>
    rw [List.forall_mem_cons, List.forall_mem_append]
    refine ⟨⟨_, List.mem_cons_self, .refl⟩, ?_, fun call hcall => hlater (ihrest call hcall)⟩
    intro call hcall
    obtain ⟨t, ht, hreaches⟩ := ihinner call hcall
    exact ⟨_, List.mem_cons_self, hreaches.head (mem_symbolsOf_iff.1 ht)⟩

theorem sortOf?_ne_none_of_mem_symbolsOf {linked : LinkedGrammar} (hlink : g.link = .ok linked)
    {rule : String} {s : Symbol} (h : s ∈ g.symbolsOf rule) : g.sortOf? s ≠ none := by
  obtain ⟨sort, hsort⟩ := exists_sortOf?_of_mentions hlink (mem_symbolsOf_iff.1 h)
  rw [hsort]
  exact Option.some_ne_none sort

theorem Calls.branch_ne_unknown {linked : LinkedGrammar} (hlink : g.link = .ok linked)
    (h : g.Calls pending w calls w') (hpending : ∀ s ∈ pending, g.sortOf? s ≠ none) :
    ∀ call ∈ calls, call.branch ≠ .unknown := by
  induction h with
  | nil => simp
  | unknown hnone => exact absurd hnone (hpending _ List.mem_cons_self)
  | terminal _ _ ih | again _ _ _ ih =>
    rw [List.forall_mem_cons] at hpending ⊢
    exact ⟨by simp, ih hpending.2⟩
  | entry _ _ _ _ ihinner ihrest =>
    rw [List.forall_mem_cons] at hpending
    rw [List.forall_mem_cons, List.forall_mem_append]
    exact ⟨by simp, ihinner fun _ => sortOf?_ne_none_of_mem_symbolsOf hlink, ihrest hpending.2⟩

theorem Calls.exists_first {linked : LinkedGrammar} (hlink : g.link = .ok linked) {s : Symbol}
    (h : g.Calls [s] w calls w') : ∃ first below, calls = first :: below ∧ first.symbol = s ∧
      ∀ call ∈ below, call.branch ≠ .unknown := by
  cases h with
  | unknown _ rest | terminal _ rest | again _ _ rest =>
    cases rest
    exact ⟨_, [], rfl, rfl, by simp⟩
  | @entry _ _ _ _ _ below _ hrule hnew inner rest =>
    cases rest
    exact ⟨_, below, by rw [List.append_nil], rfl,
      inner.branch_ne_unknown hlink fun _ => sortOf?_ne_none_of_mem_symbolsOf hlink⟩

theorem Calls.length_eq (h : g.Calls pending w calls w') :
    calls.length = pending.length + ((entriesOf calls).flatMap g.symbolsOf).length := by
  induction h with
  | nil => rfl
  | unknown _ _ ih | terminal _ _ ih | again _ _ _ ih =>
    rw [List.length_cons, ih, List.length_cons, Nat.add_right_comm]
    rfl
  | entry _ _ _ _ ihinner ihrest =>
    rw [List.length_cons, List.length_append, ihinner, ihrest, entriesOf_entry, entriesOf_append,
      List.flatMap_cons, List.flatMap_append, List.length_append, List.length_append,
      List.length_cons]
    omega

end Reached

/-- A single call at `s` from the state `w` makes these calls, itself the first, and ends in `w'`. -/
structure CallsFrom (g : Grammar) (s : Symbol) (w : Walk) (first : Call) (below : List Call)
    (w' : Walk) : Prop where
  calls : g.Calls [s] w (first :: below) w'
  symbol : first.symbol = s
  only : ∀ others w'', g.Calls [s] w others w'' → others = first :: below ∧ w'' = w'
  length : (first :: below).length =
    1 + ((entriesOf (first :: below)).flatMap g.symbolsOf).length
  once : (entriesOf (first :: below)).Nodup ∧ ∀ rule ∈ entriesOf (first :: below), rule ∉ w.entered
  entered : w'.entered = w.entered ++ entriesOf (first :: below)
  terminals : w.terminals <+: w'.terminals
  visited : ∀ t, t ∈ w'.visited ↔
    t ∈ w.visited ∨ ∃ call ∈ first :: below, call.symbol = t ∧ call.branch ≠ .unknown
  reached : ∀ call ∈ first :: below, g.Reaches s call.symbol
  known : ∀ call ∈ below, call.branch ≠ .unknown

end Grammar

namespace LinkedGrammar

/-- In a linked grammar a call at any symbol ends, whatever has been visited before it: it goes through
the alternatives of each rule at most once, what has been visited and met only grows by symbols that
the first one leads to, and none but the first lacks a meaning. -/
theorem visit_callsFrom {g : Grammar} {linked : LinkedGrammar} (hlink : g.link = .ok linked)
    (s : Symbol) (w : Walk) : ∃ first below, g.CallsFrom s w first below (g.visit [s] w) := by
  obtain ⟨calls, hcalls⟩ := g.exists_calls [s] w
  obtain ⟨first, below, rfl, hfirst, hknown⟩ := hcalls.exists_first hlink
  exact ⟨first, below, {
    calls := hcalls
    symbol := hfirst
    only := fun others w'' h => h.unique hcalls
    length := hcalls.length_eq
    once := hcalls.nodup_entered
    entered := hcalls.entered_eq
    terminals := hcalls.terminals_prefix
    visited := fun t => hcalls.mem_visited_iff
    reached := by simpa using hcalls.reaches
    known := hknown }⟩

theorem calls_ping : loopGrammar.Calls ["ping"] ⟨["pong"], []⟩
    [⟨"ping", .entry⟩, ⟨"pong", .again⟩, ⟨"'x'", .terminal⟩]
    ⟨["pong", "ping"], [("'x'", .literal)]⟩ := by
  have hliteral : loopGrammar.IsTerminalOf "'x'" .literal := ⟨by decide, rfl⟩
  have hinner : loopGrammar.Calls (loopGrammar.symbolsOf "ping") (Walk.enter ⟨["pong"], []⟩ "ping")
      [⟨"pong", .again⟩, ⟨"'x'", .terminal⟩] ⟨["pong", "ping"], [("'x'", .literal)]⟩ :=
    .again (by decide) (by decide) (.terminal hliteral .nil)
  exact .entry List.mem_cons_self (by decide) hinner .nil

theorem visit_callsFrom_ping :
    loopGrammar.link = .ok loopLinked ∧
      loopGrammar.CallsFrom "ping" ⟨["pong"], []⟩ ⟨"ping", .entry⟩
        [⟨"pong", .again⟩, ⟨"'x'", .terminal⟩] ⟨["pong", "ping"], [("'x'", .literal)]⟩ := by
  have hlink : loopGrammar.link = .ok loopLinked := rfl
  obtain ⟨first, below, hfrom⟩ := visit_callsFrom hlink "ping" ⟨["pong"], []⟩
  obtain ⟨hcalls, hwalk⟩ := hfrom.only _ _ calls_ping
  obtain ⟨rfl, rfl⟩ := List.cons.inj hcalls
  rw [← hwalk] at hfrom
  exact ⟨hlink, hfrom⟩

end LinkedGrammar

end GrammarCompletion
