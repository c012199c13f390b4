import GrammarCompletion.Completion.Expansion
import GrammarCompletion.Proofs.Grammar.Reachability

/-! What the walk from a symbol meets: exactly the terminals that the symbol leads to. Each visit
keeps two invariants. What is pending or met is something the symbol leads to, and what an entered
rule mentions is pending or has been visited; so a rule that is cut because it was entered before
loses nothing, whether its own visit is over or still under way. -/

namespace GrammarCompletion

namespace Walk

theorem mem_terminals_meet {w : Walk} {terminal other : Symbol} {sort otherSort : SymbolSort} :
    (other, otherSort) ∈ (w.meet terminal sort).terminals ↔
      (other, otherSort) ∈ w.terminals ∨ (other, otherSort) = (terminal, sort) := by
  unfold meet
  split
  · rename_i hmem
    constructor
    · exact .inl
    · rintro (hother | heq)
      · exact hother
      · rwa [heq]
  · rw [List.mem_append, List.mem_singleton]

@[simp] theorem entered_meet (w : Walk) (terminal : Symbol) (sort : SymbolSort) :
    (w.meet terminal sort).entered = w.entered := by
  unfold meet
  split <;> rfl

theorem nodup_terminals_meet {w : Walk} (h : w.terminals.Nodup) (terminal : Symbol)
    (sort : SymbolSort) : (w.meet terminal sort).terminals.Nodup := by
  unfold meet
  split
  · exact h
  · rename_i hnew
    have hnodup := List.Nodup.concat hnew h
    rwa [List.concat_eq_append] at hnodup

end Walk

namespace Grammar

variable {g : Grammar} {pending pending' : List Symbol} {w w' : Walk}

theorem mem_symbolsOf_iff {name : String} {symbol : Symbol} :
    symbol ∈ g.symbolsOf name ↔ g.Mentions name symbol := by
  unfold symbolsOf Mentions
  simp only [List.mem_flatten, mem_alternatives?_iff]

inductive Visits (g : Grammar) : List Symbol → Walk → List Symbol → Walk → Prop where
  | again {s : Symbol} {pending : List Symbol} {w : Walk} (hrule : s ∈ g.names)
      (hentered : s ∈ w.entered) : Visits g (s :: pending) w pending w
  | enter {s : Symbol} {pending : List Symbol} {w : Walk} (hrule : s ∈ g.names)
      (hnew : s ∉ w.entered) : Visits g (s :: pending) w (g.symbolsOf s ++ pending) (w.enter s)
  | pass {s : Symbol} {pending : List Symbol} {w : Walk} (hnone : g.sortOf? s = none) :
      Visits g (s :: pending) w pending w
  | meet {s : Symbol} {pending : List Symbol} {w : Walk} {sort : SymbolSort}
      (hterminal : g.IsTerminalOf s sort) : Visits g (s :: pending) w pending (w.meet s sort)

theorem visit_preserves {P : List Symbol → Walk → Prop}
    (hstep : ∀ {pending w pending' w'}, g.Visits pending w pending' w' →
      P pending w → P pending' w')
    (h : P pending w) : P [] (g.visit pending w) := by
  fun_induction g.visit pending w with
  | case1 w => exact h
  | case2 s pending w hrule hentered ih => exact ih (hstep (.again hrule hentered) h)
  | case3 s pending w hrule hnew ih => exact ih (hstep (.enter hrule hnew) h)
  | case4 s pending w hrule hsort ih =>
    have hnone : g.sortOf? s = none := by rw [sortOf?, if_neg hrule, hsort]
    exact ih (hstep (.pass hnone) h)
  | case5 s pending w hrule sort hsort ih =>
    exact ih (hstep (.meet (isTerminalOf_iff.2 ⟨hrule, hsort⟩)) h)

/-- All that is pending or met is something that the symbol leads to. -/
structure StaysWithin (g : Grammar) (first : Symbol) (pending : List Symbol) (w : Walk) : Prop where
  pending : ∀ s ∈ pending, g.Reaches first s
  terminals : ∀ t sort, (t, sort) ∈ w.terminals → g.Reaches first t ∧ g.IsTerminalOf t sort

theorem Visits.staysWithin {first : Symbol} (h : g.Visits pending w pending' w')
    (hwithin : g.StaysWithin first pending w) : g.StaysWithin first pending' w' := by
  obtain ⟨hpending, hterminals⟩ := hwithin
  have hrest : ∀ s ∈ pending.tail, g.Reaches first s :=
    fun s hs => hpending s (List.mem_of_mem_tail hs)
  cases h with
  | again | pass => exact ⟨hrest, hterminals⟩
  | @enter rule =>
    refine ⟨?_, hterminals⟩
    intro s hs
    rcases List.mem_append.1 hs with hs | hs
    · exact (hpending rule List.mem_cons_self).tail (mem_symbolsOf_iff.1 hs)
    · exact hrest s hs
  | meet hterminal =>
    refine ⟨hrest, ?_⟩
    intro t tsort ht
    rcases Walk.mem_terminals_meet.1 ht with ht | heq
    · exact hterminals t tsort ht
    · obtain ⟨rfl, rfl⟩ := Prod.mk.inj heq
      exact ⟨hpending t List.mem_cons_self, hterminal⟩

def Knows (g : Grammar) (w : Walk) (s : Symbol) : Prop :=
  (s ∈ g.names → s ∈ w.entered) ∧ ∀ sort, g.IsTerminalOf s sort → (s, sort) ∈ w.terminals

def Awaits (g : Grammar) (pending : List Symbol) (w : Walk) (s : Symbol) : Prop :=
  s ∈ pending ∨ g.Knows w s

theorem Knows.mono {s : Symbol} (h : g.Knows w s) (hentered : w.entered ⊆ w'.entered)
    (hterminals : w.terminals ⊆ w'.terminals) : g.Knows w' s :=
  ⟨fun hrule => hentered (h.1 hrule), fun sort hsort => hterminals (h.2 sort hsort)⟩

theorem knows_of_mem_entered {s : Symbol} (hrule : s ∈ g.names) (h : s ∈ w.entered) :
    g.Knows w s := by
  refine ⟨fun _ => h, ?_⟩
  intro sort hterminal
  exact absurd hrule (isTerminalOf_iff.1 hterminal).1

theorem knows_of_mem_terminals {s : Symbol} {sort : SymbolSort} (hterminal : g.IsTerminalOf s sort)
    (h : (s, sort) ∈ w.terminals) : g.Knows w s := by
  refine ⟨fun hrule => absurd hrule (isTerminalOf_iff.1 hterminal).1, ?_⟩
  intro other hother
  have hsort : sort = other := Option.some.inj (hterminal.1.symm.trans hother.1)
  rwa [← hsort]

theorem knows_of_sortOf?_eq_none {s : Symbol} (h : g.sortOf? s = none) : g.Knows w s := by
  constructor
  · intro hrule
    rw [sortOf?, if_pos hrule] at h
    exact absurd h (Option.some_ne_none _)
  · intro sort hterminal
    rw [hterminal.1] at h
    exact absurd h (Option.some_ne_none _)

theorem Visits.takes_first (h : g.Visits pending w pending' w') :
    ∃ s rest, pending = s :: rest ∧ g.Knows w' s ∧ rest ⊆ pending' ∧
      w.entered ⊆ w'.entered ∧ w.terminals ⊆ w'.terminals := by
  have hsame : ∀ {α : Type} (l : List α), l ⊆ l := fun l => List.Subset.refl l
  cases h with
  | again hrule hentered =>
    exact ⟨_, _, rfl, knows_of_mem_entered hrule hentered, hsame _, hsame _, hsame _⟩
  | @enter s _ _ hrule hnew =>
    have hentered : s ∈ (w.enter s).entered := by simp [Walk.enter]
    exact ⟨_, _, rfl, knows_of_mem_entered hrule hentered, List.subset_append_right _ _,
      List.subset_append_left _ _, hsame _⟩
  | pass hnone => exact ⟨_, _, rfl, knows_of_sortOf?_eq_none hnone, hsame _, hsame _, hsame _⟩
  | @meet s _ _ sort hterminal =>
    have hmet : (s, sort) ∈ (w.meet s sort).terminals := Walk.mem_terminals_meet.2 (.inr rfl)
    refine ⟨_, _, rfl, knows_of_mem_terminals hterminal hmet, hsame _, by simp, ?_⟩
    rintro ⟨t, tsort⟩ ht
    exact Walk.mem_terminals_meet.2 (.inl ht)

theorem Visits.awaits {s : Symbol} (h : g.Visits pending w pending' w')
    (hawaits : g.Awaits pending w s) : g.Awaits pending' w' s := by
  obtain ⟨first, rest, rfl, hfirst, hrest, hentered, hterminals⟩ := h.takes_first
  rcases hawaits with hs | hknown
  · rcases List.mem_cons.1 hs with rfl | hs
    · exact .inr hfirst
    · exact .inl (hrest hs)
  · exact .inr (hknown.mono hentered hterminals)

/-- The symbol, and all that the entered rules mention, is known or pending. -/
structure Covers (g : Grammar) (first : Symbol) (pending : List Symbol) (w : Walk) : Prop where
  first : g.Awaits pending w first
  mentioned : ∀ rule ∈ w.entered, ∀ s, g.Mentions rule s → g.Awaits pending w s

theorem Visits.covers {first : Symbol} (h : g.Visits pending w pending' w')
    (hcovers : g.Covers first pending w) : g.Covers first pending' w' := by
  have hfirst := h.awaits hcovers.first
  refine ⟨hfirst, ?_⟩
  intro rule hrule s hs
  have hold : rule ∈ w.entered → g.Awaits pending' w' s :=
    fun hentered => h.awaits (hcovers.mentioned rule hentered s hs)
  cases h with
  | again | pass => exact hold hrule
  | enter hname hnew =>
    -- Only here is there a new rule, and all that it mentions becomes pending.
    rcases List.mem_append.1 hrule with hentered | hlast
    · exact hold hentered
    · rw [List.mem_singleton.1 hlast] at hs
      exact .inl (List.mem_append_left _ (mem_symbolsOf_iff.2 hs))
  | meet hterminal =>
    rw [Walk.entered_meet] at hrule
    exact hold hrule

theorem Visits.nodup_terminals (h : g.Visits pending w pending' w') (hnodup : w.terminals.Nodup) :
    w'.terminals.Nodup := by
  cases h with
  | again | pass | enter => exact hnodup
  | meet hterminal => exact Walk.nodup_terminals_meet hnodup _ _

theorem knows_walk_of_reaches {first s : Symbol} (h : g.Reaches first s) :
    g.Knows (g.walk first) s := by
  have hstart : g.Covers first [first] ⟨[], []⟩ := ⟨.inl List.mem_cons_self, by simp⟩
  have hcovers : g.Covers first [] (g.walk first) :=
    visit_preserves (fun hvisit => hvisit.covers) hstart
  induction h with
  | refl => exact hcovers.first.resolve_left List.not_mem_nil
  | @tail rule next _ hmentions ih =>
    have hrule : rule ∈ g.names := by
      obtain ⟨alternative, hproduces, _⟩ := hmentions
      exact hproduces.mem_names
    exact (hcovers.mentioned rule (ih.1 hrule) next hmentions).resolve_left List.not_mem_nil

theorem mem_terminals_walk_iff {first t : Symbol} {sort : SymbolSort} :
    (t, sort) ∈ (g.walk first).terminals ↔ g.Reaches first t ∧ g.IsTerminalOf t sort := by
  constructor
  · have hstart : g.StaysWithin first [first] ⟨[], []⟩ := by
      refine ⟨?_, by simp⟩
      intro s hs
      rw [List.mem_singleton.1 hs]
    have hwithin : g.StaysWithin first [] (g.walk first) :=
      visit_preserves (fun hvisit => hvisit.staysWithin) hstart
    exact hwithin.terminals t sort
  · rintro ⟨hreaches, hterminal⟩
    exact (knows_walk_of_reaches hreaches).2 sort hterminal

theorem nodup_terminals_walk (g : Grammar) (first : Symbol) :
    ((g.walk first).terminals.map Prod.fst).Nodup := by
  have hnodup : (g.walk first).terminals.Nodup :=
    visit_preserves (P := fun _ w => w.terminals.Nodup) (fun hvisit => hvisit.nodup_terminals)
      List.nodup_nil
  refine hnodup.map_on ?_
  rintro ⟨s, sort⟩ hs ⟨t, tsort⟩ ht hst
  obtain rfl : s = t := hst
  have hsort := (mem_terminals_walk_iff.1 hs).2.1
  have htsort := (mem_terminals_walk_iff.1 ht).2.1
  rw [Option.some.inj (hsort.symm.trans htsort)]

end Grammar

namespace Expansion

theorem mem_literals_ofWalk {w : Walk} {text : String} :
    text ∈ (ofWalk w).literals ↔ ∃ t sort texts, (t, sort) ∈ w.terminals ∧
      Terminal.spellings t sort = .ok texts ∧ text ∈ texts := by
  unfold ofWalk
  simp only [List.mem_eraseDups, List.mem_flatMap]
  constructor
  · rintro ⟨⟨t, sort⟩, hmem, htext⟩
    cases hspell : Terminal.spellings t sort with
    | ok texts => exact ⟨t, sort, texts, hmem, hspell, by simpa [hspell] using htext⟩
    | error obstacle => simp [hspell] at htext
  · rintro ⟨t, sort, texts, hmem, hspell, htext⟩
    exact ⟨(t, sort), hmem, by simpa [hspell] using htext⟩

theorem mem_unlisted_ofWalk {w : Walk} {t : Symbol} {obstacle : Terminal.Obstacle} :
    ⟨t, obstacle⟩ ∈ (ofWalk w).unlisted ↔
      ∃ sort, (t, sort) ∈ w.terminals ∧ Terminal.spellings t sort = .error obstacle := by
  unfold ofWalk
  simp only [List.mem_filterMap]
  constructor
  · rintro ⟨⟨s, sort⟩, hmem, hunlisted⟩
    cases hspell : Terminal.spellings s sort with
    | ok texts => simp [hspell] at hunlisted
    | error found =>
      simp only [hspell, Option.some.injEq, Unlisted.mk.injEq] at hunlisted
      obtain ⟨rfl, rfl⟩ := hunlisted
      exact ⟨sort, hmem, hspell⟩
  · rintro ⟨sort, hmem, hspell⟩
    exact ⟨(t, sort), hmem, by simp [hspell]⟩

theorem unlisted_sublist_terminals (w : Walk) :
    ((ofWalk w).unlisted.map Unlisted.symbol).Sublist (w.terminals.map Prod.fst) := by
  unfold ofWalk
  induction w.terminals with
  | nil => exact .slnil
  | cons terminal terminals ih =>
    obtain ⟨t, sort⟩ := terminal
    cases hspell : Terminal.spellings t sort with
    | ok texts => simpa [hspell] using ih.cons t
    | error obstacle => simpa [hspell] using ih

def Accounts (e : Expansion) (t : Symbol) (sort : SymbolSort) : Prop :=
  (∃ texts, Terminal.spellings t sort = .ok texts ∧ ∀ text ∈ texts, text ∈ e.literals) ∨
    ∃ obstacle, ⟨t, obstacle⟩ ∈ e.unlisted

theorem accounts_ofWalk {w : Walk} {t : Symbol} {sort : SymbolSort}
    (h : (t, sort) ∈ w.terminals) : (ofWalk w).Accounts t sort := by
  cases hspell : Terminal.spellings t sort with
  | ok texts =>
    refine .inl ⟨texts, hspell, ?_⟩
    intro text htext
    exact mem_literals_ofWalk.2 ⟨t, sort, texts, h, hspell, htext⟩
  | error obstacle => exact .inr ⟨obstacle, mem_unlisted_ofWalk.2 ⟨sort, h, hspell⟩⟩

end Expansion

namespace LinkedGrammar

theorem expand_of_sortOf? {linked : LinkedGrammar} {s : Symbol} {sort : SymbolSort}
    (h : linked.grammar.sortOf? s = some sort) :
    linked.expand s = .ok (.ofWalk (linked.grammar.walk s)) := by
  rw [expand, h]
  rfl

theorem expand_of_sortOf?_eq_none {linked : LinkedGrammar} {s : Symbol}
    (h : linked.grammar.sortOf? s = none) : linked.expand s = .error (.unknownSymbol s) := by
  rw [expand, h]
  rfl

/-- The expansion of a symbol with a meaning lists what the terminals it leads to stand for, each
string once, and each of these terminals that has no list of strings once, with the obstacle. Only
a symbol without a meaning is refused. -/
theorem expand_lists_reached_terminals (linked : LinkedGrammar) (s : Symbol) :
    (linked.expand s = .error (.unknownSymbol s) ↔ linked.grammar.sortOf? s = none) ∧
      (linked.grammar.sortOf? s ≠ none → ∃ e, linked.expand s = .ok e ∧
        e.literals.Nodup ∧
        (∀ text, text ∈ e.literals ↔ ∃ t sort texts, linked.grammar.Reaches s t ∧
          linked.grammar.IsTerminalOf t sort ∧ Terminal.spellings t sort = .ok texts ∧
            text ∈ texts) ∧
        (e.unlisted.map Unlisted.symbol).Nodup ∧
        ∀ t obstacle, ⟨t, obstacle⟩ ∈ e.unlisted ↔ ∃ sort, linked.grammar.Reaches s t ∧
          linked.grammar.IsTerminalOf t sort ∧ Terminal.spellings t sort = .error obstacle) := by
  refine ⟨⟨?_, expand_of_sortOf?_eq_none⟩, ?_⟩
  · intro herror
    by_contra hmeaning
    obtain ⟨sort, hsort⟩ := Option.ne_none_iff_exists'.1 hmeaning
    rw [expand_of_sortOf? hsort] at herror
    cases herror
  · intro hmeaning
    obtain ⟨sort, hsort⟩ := Option.ne_none_iff_exists'.1 hmeaning
    have hnodup := linked.grammar.nodup_terminals_walk s
    refine ⟨_, expand_of_sortOf? hsort, nodup_eraseDups _, ?_,
      (Expansion.unlisted_sublist_terminals _).nodup hnodup, ?_⟩
    · intro text
      simp only [Expansion.mem_literals_ofWalk, Grammar.mem_terminals_walk_iff, and_assoc]
    · intro t obstacle
      simp only [Expansion.mem_unlisted_ofWalk, Grammar.mem_terminals_walk_iff, and_assoc]

def loopGrammar : Grammar where
  rules := [⟨"ping", [["pong", "'x'"]]⟩, ⟨"pong", [["ping", "'\\q'"], ["pong"]]⟩]
  distinct := by decide

def loopLinked : LinkedGrammar :=
  ⟨loopGrammar, [("pong", ["ping"]), ("'x'", ["ping"]), ("ping", ["pong"]), ("'\\q'", ["pong"])]⟩

theorem expand_loop :
    loopLinked.grammar.sortOf? "ping" ≠ none ∧ ∃ e, loopLinked.expand "ping" = .ok e ∧
      "x" ∈ e.literals ∧
        ⟨"'\\q'", .malformed (.unknownEscape 'q')⟩ ∈ e.unlisted := by
  have hmeaning : loopLinked.grammar.sortOf? "ping" ≠ none := by decide
  obtain ⟨e, hexpand, _, hliterals, _, hunlisted⟩ :=
    (expand_lists_reached_terminals loopLinked "ping").2 hmeaning
  have hping : Produces loopGrammar.rules "ping" ["pong", "'x'"] :=
    ⟨_, List.mem_cons_self, rfl, List.mem_cons_self⟩
  have hpong : Produces loopGrammar.rules "pong" ["ping", "'\\q'"] :=
    ⟨_, List.mem_cons_of_mem _ List.mem_cons_self, rfl, List.mem_cons_self⟩
  have hstep : loopGrammar.Mentions "ping" "pong" := ⟨_, hping, by decide⟩
  refine ⟨hmeaning, e, hexpand, (hliterals "x").2 ?_, (hunlisted _ _).2 ?_⟩
  · exact ⟨"'x'", .literal, ["x"], .single ⟨_, hping, by decide⟩, ⟨by decide, rfl⟩,
      by decide +kernel, by decide⟩
  · exact ⟨.literal, .tail (.single hstep) ⟨_, hpong, by decide⟩, ⟨by decide, rfl⟩,
      by decide +kernel⟩

/-- The expansion of a rule accounts for every terminal of every sentence that the rule derives.
Where each rule on the way derives a sentence, it accounts for no others. -/
theorem expand_accounts_for_sentences {g : Grammar} {linked : LinkedGrammar}
    (hlink : g.link = .ok linked) {s : Symbol} (hs : s ∈ g.names) :
    linked.expand s = .ok (.ofWalk (g.walk s)) ∧
      (∀ t sort word, g.IsTerminalOf t sort → Derives g.rules [s] word → g.IsSentence word →
        t ∈ word → (Expansion.ofWalk (g.walk s)).Accounts t sort) ∧
      ((∀ rule ∈ g.names, g.Reaches s rule → g.IsProductive rule) →
        ∀ t sort, (t, sort) ∈ (g.walk s).terminals →
          ∃ word, Derives g.rules [s] word ∧ g.IsSentence word ∧ t ∈ word) := by
  have hgrammar := (Grammar.link_eq_ok hlink).1
  have hsort : linked.grammar.sortOf? s = some .nonterminal := by
    rw [hgrammar, Grammar.sortOf?, if_pos hs]
  refine ⟨hgrammar ▸ expand_of_sortOf? hsort, ?_, ?_⟩
  · intro t sort word hterminal hderives _ hmem
    obtain ⟨first, hfirst, hreaches⟩ := Grammar.exists_reaches_of_derives hderives hmem
    rw [List.mem_singleton.1 hfirst] at hreaches
    exact Expansion.accounts_ofWalk (Grammar.mem_terminals_walk_iff.2 ⟨hreaches, hterminal⟩)
  · intro hproductive t sort hmem
    obtain ⟨hreaches, hterminal⟩ := Grammar.mem_terminals_walk_iff.1 hmem
    exact Grammar.exists_sentence_of_reaches hlink hterminal hreaches hproductive

def listGrammar : Grammar where
  rules := [⟨"list", [["item", "list"], []]⟩, ⟨"item", [["'a'"], ["NAME"]]⟩]
  distinct := by decide

def listLinked : LinkedGrammar :=
  ⟨listGrammar, [("item", ["list"]), ("'a'", ["item"]), ("NAME", ["item"])]⟩

theorem produces_list : Produces listGrammar.rules "list" ["item", "list"] :=
  ⟨_, List.mem_cons_self, rfl, List.mem_cons_self⟩

theorem derives_item : Derives listGrammar.rules ["item"] ["'a'"] :=
  Produces.derives ⟨_, List.mem_cons_of_mem _ List.mem_cons_self, rfl, List.mem_cons_self⟩

theorem derives_empty_list : Derives listGrammar.rules ["list"] [] :=
  Produces.derives ⟨_, List.mem_cons_self, rfl, List.mem_cons_of_mem _ List.mem_cons_self⟩

theorem isProductive_list : ∀ rule ∈ listGrammar.names, listGrammar.IsProductive rule := by
  have hterminal : listGrammar.IsTerminalOf "'a'" .literal := ⟨by decide, rfl⟩
  intro rule hrule
  rcases List.mem_cons.1 hrule with rfl | hrule
  · exact ⟨[], derives_empty_list, by simp [Grammar.IsSentence]⟩
  · obtain rfl := List.mem_singleton.1 hrule
    exact ⟨["'a'"], derives_item, hterminal.isSentence⟩

theorem expand_list :
    listGrammar.link = .ok listLinked ∧ "list" ∈ listGrammar.names ∧
      Derives listGrammar.rules ["list"] ["'a'"] ∧
        (Expansion.ofWalk (listGrammar.walk "list")).Accounts "'a'" .literal ∧
          ∃ word, Derives listGrammar.rules ["list"] word ∧ listGrammar.IsSentence word ∧
            "NAME" ∈ word := by
  have hlink : listGrammar.link = .ok listLinked := by rfl
  have hname : "list" ∈ listGrammar.names := by decide
  have hterminal : listGrammar.IsTerminalOf "'a'" .literal := ⟨by decide, rfl⟩
  have hderives : Derives listGrammar.rules ["list"] ["'a'"] :=
    produces_list.derives.trans (derives_item.append derives_empty_list)
  obtain ⟨_, haccounts, hderived⟩ := expand_accounts_for_sentences hlink hname
  have hitem : listGrammar.Mentions "item" "NAME" :=
    ⟨["NAME"], ⟨_, List.mem_cons_of_mem _ List.mem_cons_self, rfl, by decide⟩, by decide⟩
  have hmet : ("NAME", .token) ∈ (listGrammar.walk "list").terminals :=
    Grammar.mem_terminals_walk_iff.2
      ⟨.tail (.single ⟨_, produces_list, by decide⟩) hitem, by decide, rfl⟩
  refine ⟨hlink, hname, hderives, ?_, ?_⟩
  · exact haccounts _ _ _ hterminal hderives hterminal.isSentence List.mem_cons_self
  · exact hderived (fun rule hrule _ => isProductive_list rule hrule) _ _ hmet

end LinkedGrammar

end GrammarCompletion
