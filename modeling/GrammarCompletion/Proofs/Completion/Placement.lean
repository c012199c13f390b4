import GrammarCompletion.Completion.Continuation
import GrammarCompletion.Proofs.Grammar.Links
import GrammarCompletion.Proofs.Tree.Arena

/-! The places of a node, read off the table. Going through the links of its kind gives the same
places in the same order as a scan of all positions of all alternatives. The node may be placed
where it stands among its siblings, or behind all of them where the alternative goes on. -/

namespace GrammarCompletion

theorem flatMap_filter_of_eq_nil {α β : Type} {p : α → Bool} {f : α → List β} {l : List α}
    (h : ∀ x ∈ l, p x = false → f x = []) : (l.filter p).flatMap f = l.flatMap f := by
  induction l with
  | nil => rfl
  | cons x l ih =>
    have hrest := ih fun y hy => h y (List.mem_cons_of_mem _ hy)
    cases hp : p x with
    | true => rw [List.filter_cons_of_pos hp, List.flatMap_cons, List.flatMap_cons, hrest]
    | false =>
      rw [List.filter_cons_of_neg (by simp [hp]), List.flatMap_cons, hrest,
        h x List.mem_cons_self hp, List.nil_append]

def Rule.places (rule : Rule) : List Placement :=
  rule.alternatives.flatMap fun alternative =>
    (List.range alternative.length).map fun i => ⟨rule.name, alternative, i⟩

def Grammar.places (g : Grammar) : List Placement := g.rules.flatMap Rule.places

theorem Rule.mem_places_iff {rule : Rule} {place : Placement} :
    place ∈ rule.places ↔ place.rule = rule.name ∧ place.alternative ∈ rule.alternatives ∧
      place.position < place.alternative.length := by
  unfold places
  simp only [List.mem_flatMap, List.mem_map, List.mem_range]
  constructor
  · rintro ⟨alternative, halternative, i, hi, rfl⟩
    exact ⟨rfl, halternative, hi⟩
  · rintro ⟨hrule, halternative, hi⟩
    obtain ⟨name, alternative, i⟩ := place
    obtain rfl : name = rule.name := hrule
    exact ⟨alternative, halternative, i, hi, rfl⟩

theorem Grammar.mem_places_iff {g : Grammar} {place : Placement} :
    place ∈ g.places ↔ Produces g.rules place.rule place.alternative ∧
      place.position < place.alternative.length := by
  unfold places
  simp only [List.mem_flatMap, Rule.mem_places_iff]
  constructor
  · rintro ⟨rule, hrule, hname, halternative, hi⟩
    exact ⟨⟨rule, hrule, hname.symm, halternative⟩, hi⟩
  · rintro ⟨⟨rule, hrule, hname, halternative⟩, hi⟩
    exact ⟨rule, hrule, hname.symm, halternative, hi⟩

/-- The place can be that of a node of this kind at the position `k` among siblings of these kinds.
Its rule has another name, and its alternative more than one symbol. It is the position `k`, and
the alternative begins with the kinds up to there; or it is behind all siblings, and the alternative
begins with all their kinds. -/
def Placement.Fits (kinds : List String) (k : Nat) (kind : String) (place : Placement) : Prop :=
  place.rule ≠ kind ∧ 2 ≤ place.alternative.length ∧
    place.alternative[place.position]? = some kind ∧
      (place.position = k ∧ place.alternative.take (k + 1) = kinds.take (k + 1) ∨
        kinds.length ≤ place.position ∧ place.alternative.take kinds.length = kinds)

instance (kinds : List String) (k : Nat) (kind : String) (place : Placement) :
    Decidable (place.Fits kinds k kind) :=
  inferInstanceAs (Decidable (_ ∧ _ ∧ _ ∧ (_ ∧ _ ∨ _ ∧ _)))

def Arena.Begins (a : Arena) (p count : Nat) (alternative : Alternative) : Prop :=
  (alternative.take count).map some = ((a.childrenOf p).take count).map a.kind?

theorem all_zip_kind_iff (a : Arena) {symbols : List Symbol} {ids : List Nat}
    (hlength : ids.length ≤ symbols.length) :
    ((symbols.zip ids).all fun (symbol, id) => a.kind? id = some symbol) = true ↔
      (symbols.take ids.length).map some = ids.map a.kind? := by
  induction ids generalizing symbols with
  | nil => simp
  | cons id ids ih =>
    cases symbols with
    | nil => simp at hlength
    | cons symbol symbols =>
      have hrest : ids.length ≤ symbols.length := by simpa using hlength
      rw [List.zip_cons_cons, List.all_cons, Bool.and_eq_true, ih hrest, List.length_cons,
        List.take_succ_cons, List.map_cons, List.map_cons, List.cons.injEq]
      rw [decide_eq_true_eq, eq_comm (a := some symbol)]

namespace LinkedGrammar

variable {a : Arena} {p k n i : Nat} {alternative : Alternative}

theorem agrees_iff (hi : i < alternative.length) :
    agrees a (a.childrenOf p) n alternative i = true ↔
      (∀ c ∈ (a.childrenOf p)[i]?, c = n) ∧
        a.Begins p (min (i + 1) (a.childrenOf p).length) alternative := by
  have hlength : ((a.childrenOf p).take (i + 1)).length ≤ alternative.length := by
    rw [List.length_take]
    omega
  have htake : (a.childrenOf p).take (i + 1) =
      (a.childrenOf p).take (min (i + 1) (a.childrenOf p).length) := List.take_eq_take_min
  unfold agrees Arena.Begins
  rw [Bool.and_eq_true, all_zip_kind_iff a hlength, List.length_take, ← htake]
  refine and_congr_left fun _ => ?_
  cases (a.childrenOf p)[i]? <;> simp

theorem sibling_eq_iff (hnodup : (a.childrenOf p).Nodup) (hn : (a.childrenOf p)[k]? = some n) :
    (∀ c ∈ (a.childrenOf p)[i]?, c = n) ↔ i = k ∨ (a.childrenOf p).length ≤ i := by
  obtain ⟨hk, hget⟩ := List.getElem?_eq_some_iff.1 hn
  constructor
  · intro h
    by_cases hi : i < (a.childrenOf p).length
    · have heq := h _ (List.getElem?_eq_getElem hi)
      rw [← hget] at heq
      exact .inl ((hnodup.getElem_inj_iff).1 heq)
    · exact .inr (Nat.le_of_not_lt hi)
  · rintro (rfl | hi) c hc
    · rw [hn] at hc
      exact (Option.some.inj hc).symm
    · rw [List.getElem?_eq_none hi] at hc
      simp at hc

variable {g : Grammar} {linked : LinkedGrammar} {t : Tree} {kind : String}

/-- The test that the links and the siblings put to a place of the table. -/
def suits (a : Arena) (siblings : List Nat) (id : Nat) (kind : String) (place : Placement) : Bool :=
  place.rule ≠ kind && place.alternative.length ≠ 1 &&
    (place.alternative[place.position]? = some kind &&
      agrees a siblings id place.alternative place.position)

theorem filter_suits_places {siblings : List Nat} {rule : Rule} (hrule : rule.name ≠ kind) :
    rule.places.filter (suits a siblings n kind) =
      rule.alternatives.flatMap fun alternative =>
        if alternative.length = 1 then []
        else ((List.range alternative.length).filter fun i =>
          alternative[i]? = some kind && agrees a siblings n alternative i).map
            fun i => ⟨rule.name, alternative, i⟩ := by
  rw [Rule.places, List.filter_flatMap]
  apply List.flatMap_congr
  intro alternative _
  rw [List.filter_map]
  split
  · rename_i hlength
    have hnone : suits a siblings n kind ∘ (fun i => ⟨rule.name, alternative, i⟩) =
        fun _ => false := by
      funext i
      simp [suits, hlength]
    rw [hnone, List.filter_false, List.map_nil]
  · rename_i hlength
    have hsome : suits a siblings n kind ∘ (fun i => ⟨rule.name, alternative, i⟩) =
        fun i => decide (alternative[i]? = some kind) && agrees a siblings n alternative i := by
      funext i
      simp [suits, hlength, hrule]
    rw [hsome]

theorem placements_eq_filter_suits (hlink : g.link = .ok linked) {node : Node}
    (hnode : a.node? n = some node) (hparent : node.parent = some p) :
    linked.placements a n = g.places.filter (suits a (a.childrenOf p) n node.kind) := by
  have hother : ∀ rule ∈ g.rules,
      decide (rule.name ≠ node.kind ∧ node.kind ∈ rule.symbols) = false →
        rule.places.filter (suits a (a.childrenOf p) n node.kind) = [] := by
    -- A rule that is not linked has no place for the kind, or is the kind itself.
    intro rule _ hunlinked
    rw [List.filter_eq_nil_iff]
    intro place hplace hsuits
    obtain ⟨hname, halternative, _⟩ := Rule.mem_places_iff.1 hplace
    simp only [suits, Bool.and_eq_true, decide_eq_true_eq] at hsuits
    obtain ⟨⟨hne, _⟩, hkind, _⟩ := hsuits
    have hsymbol : node.kind ∈ rule.symbols :=
      List.mem_flatten.2 ⟨_, halternative, List.mem_of_getElem? hkind⟩
    exact of_decide_eq_false hunlinked ⟨hname ▸ hne, hsymbol⟩
  rw [Grammar.places, List.filter_flatMap, ← flatMap_filter_of_eq_nil hother]
  unfold placements
  simp only [hnode, hparent, Grammar.parentsOf_eq_filter hlink, (Grammar.link_eq_ok hlink).1,
    List.flatMap_map]
  apply List.flatMap_congr
  intro rule hrule
  rw [List.mem_filter, decide_eq_true_eq] at hrule
  rw [Grammar.alternatives?_of_mem g hrule.1, Option.getD_some, filter_suits_places hrule.2.1]

theorem placements_of_parent?_eq_none (h : a.parent? n = none) : linked.placements a n = [] := by
  unfold placements
  cases hnode : a.node? n with
  | none => rfl
  | some node =>
    have hparent : node.parent = none := by simpa [Arena.parent?, hnode] using h
    simp only [hparent]

theorem produces_of_mem_placements (hlink : g.link = .ok linked) {place : Placement}
    (h : place ∈ linked.placements a n) : Produces g.rules place.rule place.alternative := by
  cases hparent : a.parent? n with
  | none =>
    rw [placements_of_parent?_eq_none hparent] at h
    simp at h
  | some p =>
    obtain ⟨node, hnode, hp⟩ := Option.bind_eq_some_iff.1 hparent
    rw [placements_eq_filter_suits hlink hnode hp] at h
    exact (Grammar.mem_places_iff.1 (List.mem_filter.1 h).1).1

theorem begins_iff {kinds : List String} (hkinds : (a.childrenOf p).map a.kind? = kinds.map some)
    {count : Nat} : a.Begins p count alternative ↔ alternative.take count = kinds.take count := by
  have hfirst : ((a.childrenOf p).take count).map a.kind? = (kinds.take count).map some := by
    rw [List.map_take, hkinds, List.map_take]
  unfold Arena.Begins
  rw [hfirst]
  exact List.map_inj_right fun _ _ => Option.some.inj

theorem suits_iff_fits (htree : Arena.ofTree t = .ok a) (hn : (a.childrenOf p)[k]? = some n)
    {kinds : List String} (hkinds : (a.childrenOf p).map a.kind? = kinds.map some)
    {place : Placement} (hplace : place.position < place.alternative.length) :
    suits a (a.childrenOf p) n kind place = true ↔ place.Fits kinds k kind := by
  have hk := (List.getElem?_eq_some_iff.1 hn).1
  have hlength : (a.childrenOf p).length = kinds.length := by
    simpa using congrArg List.length hkinds
  have htwo : place.alternative.length ≠ 1 ↔ 2 ≤ place.alternative.length := by omega
  unfold suits Placement.Fits
  rw [Bool.and_eq_true, Bool.and_eq_true, Bool.and_eq_true, agrees_iff hplace,
    sibling_eq_iff (Arena.childrenOf_nodup htree p) hn, begins_iff hkinds, hlength]
  simp only [decide_eq_true_eq, htwo, and_assoc]
  refine and_congr_right fun _ => and_congr_right fun _ => and_congr_right fun _ => ?_
  constructor
  · rintro ⟨rfl | hi, htake⟩
    · rw [Nat.min_eq_left (by omega)] at htake
      exact .inl ⟨rfl, htake⟩
    · rw [Nat.min_eq_right (by omega), List.take_length] at htake
      exact .inr ⟨hi, htake⟩
  · rintro (⟨rfl, htake⟩ | ⟨hi, htake⟩)
    · rw [Nat.min_eq_left (by omega)]
      exact ⟨.inl rfl, htake⟩
    · rw [Nat.min_eq_right (by omega), List.take_length]
      exact ⟨.inr hi, htake⟩

theorem placements_eq_filter_fits (hlink : g.link = .ok linked) (htree : Arena.ofTree t = .ok a)
    (hn : (a.childrenOf p)[k]? = some n) (hkind : a.kind? n = some kind) {kinds : List String}
    (hkinds : (a.childrenOf p).map a.kind? = kinds.map some) :
    linked.placements a n = g.places.filter fun place => place.Fits kinds k kind := by
  obtain ⟨node, hnode, hparent⟩ := Arena.node?_of_mem_childrenOf htree (List.mem_of_getElem? hn)
  obtain rfl : node.kind = kind := by simpa [Arena.kind?, hnode] using hkind
  rw [placements_eq_filter_suits hlink hnode hparent]
  apply List.filter_congr
  intro place hplace
  have hposition := (Grammar.mem_places_iff.1 hplace).2
  rw [Bool.eq_iff_iff, suits_iff_fits htree hn hkinds hposition, decide_eq_true_eq]

theorem take_eq_of_fits {kinds : List String} {place : Placement} (hk : k < kinds.length)
    (h : place.Fits kinds k kind) : place.alternative.take (k + 1) = kinds.take (k + 1) := by
  obtain ⟨_, _, _, ⟨_, htake⟩ | ⟨_, htake⟩⟩ := h
  · exact htake
  · have hshorter := congrArg (List.take (k + 1)) htake
    rwa [List.take_take, Nat.min_eq_left (by omega)] at hshorter

/-- The root has no place. The places of any other node are those of the table that fit the kinds
of its siblings, in the order of the table, and they agree with the siblings up to the node. -/
theorem placements_eq_scan (hlink : g.link = .ok linked) (htree : Arena.ofTree t = .ok a) :
    linked.placements a 0 = [] ∧
      ∀ n < a.size, n ≠ 0 → ∃ p k kind kinds, a.parent? n = some p ∧
        (a.childrenOf p)[k]? = some n ∧ a.kind? n = some kind ∧
          (a.childrenOf p).map a.kind? = kinds.map some ∧
            linked.placements a n = (g.places.filter fun place => place.Fits kinds k kind) ∧
              ∀ place ∈ linked.placements a n,
                place.alternative.take (k + 1) = kinds.take (k + 1) := by
  refine ⟨placements_of_parent?_eq_none (Arena.parent?_zero htree), ?_⟩
  intro n hsize hroot
  obtain ⟨p, hmem⟩ := Arena.exists_mem_childrenOf htree hsize hroot
  obtain ⟨k, hn⟩ := List.mem_iff_getElem?.1 hmem
  obtain ⟨node, hnode, hparent⟩ := Arena.node?_of_mem_childrenOf htree hmem
  obtain ⟨kind, hkind⟩ := Arena.exists_kind?_of_mem_childrenOf htree hmem
  obtain ⟨kinds, hkinds⟩ := Arena.exists_kinds htree p
  have hplacements := placements_eq_filter_fits hlink htree hn hkind hkinds
  refine ⟨p, k, kind, kinds, by rw [Arena.parent?, hnode]; exact hparent, hn, hkind, hkinds,
    hplacements, ?_⟩
  intro place hplace
  rw [hplacements, List.mem_filter, decide_eq_true_eq] at hplace
  have hlength : (a.childrenOf p).length = kinds.length := by
    simpa using congrArg List.length hkinds
  have hk := (List.getElem?_eq_some_iff.1 hn).1
  exact take_eq_of_fits (by omega) hplace.2

def rowGrammar : Grammar where
  rules := [⟨"row", [["ITEM"], ["ITEM", "ITEM", "END"]]⟩, ⟨"cell", [["ITEM", "row"], []]⟩]
  distinct := by decide

def rowLinked : LinkedGrammar :=
  ⟨rowGrammar, [("ITEM", ["row", "cell"]), ("END", ["row"]), ("row", ["cell"])]⟩

def rowTree : Tree := .node "row" "i" ⟨0, 1⟩ [.leaf "ITEM" "i" 0 1]

def rowArena : Arena where
  nodes := #[⟨"row", "i", ⟨0, 1⟩, [1], none⟩, ⟨"ITEM", "i", ⟨0, 1⟩, [], some 0⟩]
  nonempty := by decide

theorem placements_row :
    rowGrammar.link = .ok rowLinked ∧ Arena.ofTree rowTree = .ok rowArena ∧
      rowLinked.placements rowArena 0 = [] ∧
        rowLinked.placements rowArena 1 = [⟨"row", ["ITEM", "ITEM", "END"], 0⟩,
          ⟨"row", ["ITEM", "ITEM", "END"], 1⟩, ⟨"cell", ["ITEM", "row"], 0⟩] ∧
          ∃ k kind kinds, rowLinked.placements rowArena 1 =
            rowGrammar.places.filter fun place => place.Fits kinds k kind := by
  have hlink : rowGrammar.link = .ok rowLinked := by rfl
  have htree : Arena.ofTree rowTree = .ok rowArena := Arena.ofTree_eq_ok_iff.2 ⟨rfl, rfl⟩
  obtain ⟨hroot, hchild⟩ := placements_eq_scan hlink htree
  obtain ⟨_, k, kind, kinds, _, _, _, _, hplacements, _⟩ := hchild 1 (by decide) (by decide)
  exact ⟨hlink, htree, hroot, by decide, k, kind, kinds, hplacements⟩

end LinkedGrammar

end GrammarCompletion
