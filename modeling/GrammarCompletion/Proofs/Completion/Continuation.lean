import GrammarCompletion.Proofs.Completion.Placement

/-! What stands behind the places of a node, and so may follow it: symbols of alternatives that
begin like its siblings, and every such symbol unless the node is of the rule itself. -/

namespace GrammarCompletion

theorem Arena.Begins.mono {a : Arena} {p count fewer : Nat} {alternative : Alternative}
    (h : a.Begins p count alternative) (hle : fewer ≤ count) : a.Begins p fewer alternative := by
  have htake := congrArg (List.take fewer) h
  rw [← List.map_take, ← List.map_take, List.take_take, List.take_take,
    Nat.min_eq_left hle] at htake
  exact htake

theorem Arena.Begins.getElem? {a : Arena} {p count i n : Nat} {kind : String}
    {alternative : Alternative} (h : a.Begins p count alternative) (hi : i < count)
    (hn : (a.childrenOf p)[i]? = some n) (hkind : a.kind? n = some kind) :
    alternative[i]? = some kind := by
  have hget := congrArg (·[i]?) h
  simp only [List.getElem?_map, List.getElem?_take, hi, if_true, hn, Option.map_some,
    hkind] at hget
  simpa using hget

namespace LinkedGrammar

variable {g : Grammar} {linked : LinkedGrammar} {t : Tree} {a : Arena}
variable {p k n i : Nat} {kind rule : String} {alternative : Alternative}

theorem mem_placements_iff (hlink : g.link = .ok linked) (htree : Arena.ofTree t = .ok a)
    (hn : (a.childrenOf p)[k]? = some n) (hkind : a.kind? n = some kind) :
    ⟨rule, alternative, i⟩ ∈ linked.placements a n ↔
      rule ≠ kind ∧ Produces g.rules rule alternative ∧ alternative.length ≠ 1 ∧
        alternative[i]? = some kind ∧ (i = k ∨ (a.childrenOf p).length ≤ i) ∧
          a.Begins p (min (i + 1) (a.childrenOf p).length) alternative := by
  obtain ⟨node, hnode, hparent⟩ := Arena.node?_of_mem_childrenOf htree (List.mem_of_getElem? hn)
  obtain rfl : node.kind = kind := by simpa [Arena.kind?, hnode] using hkind
  have hsibling := @sibling_eq_iff a p k n i (Arena.childrenOf_nodup htree p) hn
  rw [placements_eq_filter_suits hlink hnode hparent, List.mem_filter, Grammar.mem_places_iff]
  simp only [suits, Bool.and_eq_true, decide_eq_true_eq]
  constructor
  · rintro ⟨⟨hproduces, hi⟩, ⟨hrule, hlength⟩, hsymbol, hagrees⟩
    rw [agrees_iff hi, hsibling] at hagrees
    exact ⟨hrule, hproduces, hlength, hsymbol, hagrees⟩
  · rintro ⟨hrule, hproduces, hlength, hsymbol, hagrees⟩
    have hi := (List.getElem?_eq_some_iff.1 hsymbol).1
    rw [← hsibling, ← agrees_iff hi] at hagrees
    exact ⟨⟨hproduces, hi⟩, ⟨hrule, hlength⟩, hsymbol, hagrees⟩

theorem mem_nextSymbols_iff (hlink : g.link = .ok linked) (htree : Arena.ofTree t = .ok a)
    (hn : (a.childrenOf p)[k]? = some n) (hkind : a.kind? n = some kind) {s : Symbol} :
    s ∈ linked.nextSymbols a n ↔ ∃ rule alternative i,
      rule ≠ kind ∧ Produces g.rules rule alternative ∧ alternative[i]? = some kind ∧
        alternative[i + 1]? = some s ∧ (i = k ∨ (a.childrenOf p).length ≤ i) ∧
          a.Begins p (min (i + 1) (a.childrenOf p).length) alternative := by
  unfold nextSymbols
  rw [List.mem_eraseDups, List.mem_filterMap]
  constructor
  · rintro ⟨⟨rule, alternative, i⟩, hplace, hnext⟩
    rw [mem_placements_iff hlink htree hn hkind] at hplace
    obtain ⟨hrule, hproduces, _, hsymbol, hplace⟩ := hplace
    exact ⟨rule, alternative, i, hrule, hproduces, hsymbol, hnext, hplace⟩
  · rintro ⟨rule, alternative, i, hrule, hproduces, hsymbol, hnext, hplace⟩
    refine ⟨⟨rule, alternative, i⟩, ?_, hnext⟩
    rw [mem_placements_iff hlink htree hn hkind]
    have hlength : alternative.length ≠ 1 := by
      have hlt := (List.getElem?_eq_some_iff.1 hnext).1
      omega
    exact ⟨hrule, hproduces, hlength, hsymbol, hplace⟩

/-- A symbol that may follow a node stands behind an occurrence of its kind, in an alternative that
begins like the siblings up to the node. The occurrence is at the position of the node, or the
alternative begins like all siblings and the occurrence is behind them. -/
theorem exists_occurrence_of_mem_nextSymbols (hlink : g.link = .ok linked)
    (htree : Arena.ofTree t = .ok a) (hn : (a.childrenOf p)[k]? = some n) {s : Symbol}
    (hs : s ∈ linked.nextSymbols a n) :
    ∃ rule alternative i, Produces g.rules rule alternative ∧ a.kind? n ≠ some rule ∧
      a.Begins p (k + 1) alternative ∧ alternative[i]? = a.kind? n ∧
        alternative[i + 1]? = some s ∧
          (i = k ∨ (a.childrenOf p).length ≤ i ∧
            a.Begins p (a.childrenOf p).length alternative) := by
  obtain ⟨kind, hkind⟩ := Arena.exists_kind?_of_mem_childrenOf htree (List.mem_of_getElem? hn)
  have hk := (List.getElem?_eq_some_iff.1 hn).1
  rw [mem_nextSymbols_iff hlink htree hn hkind] at hs
  obtain ⟨rule, alternative, i, hrule, hproduces, hsymbol, hnext, hi, hbegins⟩ := hs
  have hself : a.Begins p (k + 1) alternative := hbegins.mono (by omega)
  refine ⟨rule, alternative, i, hproduces, ?_, hself, by rw [hsymbol, hkind], hnext, ?_⟩
  · rw [hkind]
    exact fun heq => hrule (Option.some.inj heq).symm
  · refine hi.imp_right fun hle => ⟨hle, ?_⟩
    rwa [Nat.min_eq_right (by omega)] at hbegins

def pairGrammar : Grammar where
  rules := [⟨"pair", [["ITEM", "ITEM", "END"]]⟩]
  distinct := by decide

def pairLinked : LinkedGrammar := ⟨pairGrammar, [("ITEM", ["pair"]), ("END", ["pair"])]⟩

def pairTree : Tree := .node "pair" "i" ⟨0, 1⟩ [.leaf "ITEM" "i" 0 1]

def pairArena : Arena where
  nodes := #[⟨"pair", "i", ⟨0, 1⟩, [1], none⟩, ⟨"ITEM", "i", ⟨0, 1⟩, [], some 0⟩]
  nonempty := by decide

theorem link_pair : pairGrammar.link = .ok pairLinked := by rfl

theorem ofTree_pair : Arena.ofTree pairTree = .ok pairArena := Arena.ofTree_eq_ok_iff.2 ⟨rfl, rfl⟩

/-- The only item so far may be followed by the end, as if it were the second one. -/
theorem end_mem_nextSymbols_not_next :
    pairGrammar.link = .ok pairLinked ∧ Arena.ofTree pairTree = .ok pairArena ∧
      (pairArena.childrenOf 0)[0]? = some 1 ∧ "END" ∈ pairLinked.nextSymbols pairArena 1 ∧
        ¬ ∃ rule alternative, Produces pairGrammar.rules rule alternative ∧
          pairArena.Begins 0 (0 + 1) alternative ∧ alternative[0 + 1]? = some "END" := by
  refine ⟨link_pair, ofTree_pair, by decide, by decide, ?_⟩
  rintro ⟨name, alternative, ⟨rule, hrule, _, halternative⟩, _, hnext⟩
  obtain rfl := List.mem_singleton.1 hrule
  obtain rfl := List.mem_singleton.1 halternative
  simp at hnext

theorem exists_occurrence_end :
    (pairArena.childrenOf 0)[0]? = some 1 ∧ "END" ∈ pairLinked.nextSymbols pairArena 1 ∧
      ∃ rule alternative i, Produces pairGrammar.rules rule alternative ∧
        pairArena.kind? 1 ≠ some rule ∧ pairArena.Begins 0 (0 + 1) alternative ∧
          alternative[i]? = pairArena.kind? 1 ∧ alternative[i + 1]? = some "END" ∧
            (i = 0 ∨ (pairArena.childrenOf 0).length ≤ i ∧
              pairArena.Begins 0 (pairArena.childrenOf 0).length alternative) := by
  have hchild : (pairArena.childrenOf 0)[0]? = some 1 := by decide
  have hend : "END" ∈ pairLinked.nextSymbols pairArena 1 := by decide
  exact ⟨hchild, hend, exists_occurrence_of_mem_nextSymbols link_pair ofTree_pair hchild hend⟩

/-- What follows the siblings up to a node in an alternative of a rule, say of the rule that its
parent is of, may follow the node, unless the node itself is of that rule. -/
theorem mem_nextSymbols_of_begins (hlink : g.link = .ok linked) (htree : Arena.ofTree t = .ok a)
    (hn : (a.childrenOf p)[k]? = some n) (hrule : a.kind? n ≠ some rule)
    (hproduces : Produces g.rules rule alternative) (hbegins : a.Begins p (k + 1) alternative)
    {s : Symbol} (hnext : alternative[k + 1]? = some s) : s ∈ linked.nextSymbols a n := by
  obtain ⟨kind, hkind⟩ := Arena.exists_kind?_of_mem_childrenOf htree (List.mem_of_getElem? hn)
  have hk := (List.getElem?_eq_some_iff.1 hn).1
  rw [mem_nextSymbols_iff hlink htree hn hkind]
  refine ⟨rule, alternative, k, ?_, hproduces, ?_, hnext, .inl rfl, ?_⟩
  · rintro rfl
    exact hrule hkind
  · exact hbegins.getElem? (Nat.lt_succ_self k) hn hkind
  · rwa [Nat.min_eq_left hk]

def sumGrammar : Grammar where
  rules := [⟨"expr", [["expr", "'+'", "term"], ["term"]]⟩, ⟨"term", [["NUMBER"]]⟩]
  distinct := by decide

def sumLinked : LinkedGrammar :=
  ⟨sumGrammar, [("'+'", ["expr"]), ("term", ["expr"]), ("NUMBER", ["term"])]⟩

def sumTree : Tree :=
  .node "expr" "1+" ⟨0, 2⟩
    [.node "expr" "1" ⟨0, 1⟩ [.node "term" "1" ⟨0, 1⟩ [.leaf "NUMBER" "1" 0 1]],
      .leaf "'+'" "+" 1 2]

def sumArena : Arena where
  nodes := #[⟨"expr", "1+", ⟨0, 2⟩, [1, 4], none⟩, ⟨"expr", "1", ⟨0, 1⟩, [2], some 0⟩,
    ⟨"term", "1", ⟨0, 1⟩, [3], some 1⟩, ⟨"NUMBER", "1", ⟨0, 1⟩, [], some 2⟩,
    ⟨"'+'", "+", ⟨1, 2⟩, [], some 0⟩]
  nonempty := by decide

theorem link_sum : sumGrammar.link = .ok sumLinked := by rfl

theorem ofTree_sum : Arena.ofTree sumTree = .ok sumArena := Arena.ofTree_eq_ok_iff.2 ⟨rfl, rfl⟩

theorem produces_sum : Produces sumGrammar.rules "expr" ["expr", "'+'", "term"] :=
  ⟨_, List.mem_cons_self, rfl, List.mem_cons_self⟩

/-- The rule is not linked from its own name, so nothing follows the inner expression. -/
theorem plus_not_mem_nextSymbols :
    sumGrammar.link = .ok sumLinked ∧ Arena.ofTree sumTree = .ok sumArena ∧
      (sumArena.childrenOf 0)[0]? = some 1 ∧ sumArena.kind? 0 = some "expr" ∧
        Produces sumGrammar.rules "expr" ["expr", "'+'", "term"] ∧
          sumArena.Begins 0 (0 + 1) ["expr", "'+'", "term"] ∧
            ["expr", "'+'", "term"][0 + 1]? = some "'+'" ∧
              "'+'" ∉ sumLinked.nextSymbols sumArena 1 :=
  ⟨link_sum, ofTree_sum, by decide, by decide, produces_sum, by rfl, by decide, by decide⟩

theorem term_mem_nextSymbols :
    (sumArena.childrenOf 0)[1]? = some 4 ∧ sumArena.kind? 4 ≠ some "expr" ∧
      sumArena.Begins 0 (1 + 1) ["expr", "'+'", "term"] ∧
        "term" ∈ sumLinked.nextSymbols sumArena 4 := by
  have hchild : (sumArena.childrenOf 0)[1]? = some 4 := by decide
  have hkind : sumArena.kind? 4 ≠ some "expr" := by decide
  have hbegins : sumArena.Begins 0 (1 + 1) ["expr", "'+'", "term"] := by rfl
  have hnext : ["expr", "'+'", "term"][1 + 1]? = some "term" := by decide
  exact ⟨hchild, hkind, hbegins,
    mem_nextSymbols_of_begins link_sum ofTree_sum hchild hkind produces_sum hbegins hnext⟩

end LinkedGrammar

end GrammarCompletion
