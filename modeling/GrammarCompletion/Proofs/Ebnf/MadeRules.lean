import Mathlib.Data.List.Nodup
import Mathlib.Logic.Relation
import GrammarCompletion.Ebnf.Lowering
import GrammarCompletion.Proofs.Ebnf.Lexeme

/-! The names of the flat rules of a document. A made rule is told from every written one by its
first character, and its name gives back its owner and its number; so no two flat rules share a
name where the written names differ. -/

namespace GrammarCompletion.Ebnf

inductive Item.WellFormed : Item → Prop where
  | reference {name : String} {repetition : Option Repetition}
      (h : isIdentifier name.toList = true) : WellFormed (.reference name repetition)
  | terminal {lexeme : String} {repetition : Option Repetition} (h : IsTerminal lexeme.toList) :
      WellFormed (.terminal lexeme repetition)
  | group {alternatives : List (List Item)} {repetition : Option Repetition}
      (h : ∀ items ∈ alternatives, ∀ item ∈ items, WellFormed item) :
      WellFormed (.group alternatives repetition)

structure Document.WellFormed (document : Document) : Prop where
  names : ∀ definition ∈ document, isIdentifier definition.name.toList = true
  distinct : (document.map Definition.name).Nodup
  items : ∀ definition ∈ document, ∀ items ∈ definition.body, ∀ item ∈ items, item.WellFormed

section Names

theorem not_mem_of_isIdentifier {cs : List Char} (h : isIdentifier cs = true) {c : Char}
    (hstart : isIdentifierStart c = false) (hrest : isIdentifierRest c = false) : c ∉ cs := by
  cases cs with
  | nil => simp
  | cons d cs =>
    simp only [isIdentifier, Bool.and_eq_true, List.all_eq_true] at h
    intro hc
    rcases List.mem_cons.1 hc with rfl | hc
    · simp [hstart] at h
    · simp [h.2 c hc] at hrest

theorem toList_madeName (owner : String) (n : Nat) :
    (madeName owner n).toList = '%' :: (owner.toList ++ '[' :: ((toString n).toList ++ [']'])) := by
  simp [madeName, String.toList_append]

theorem madeName_inj {owner owner' : String} {m n : Nat} (howner : '[' ∉ owner.toList)
    (howner' : '[' ∉ owner'.toList) (h : madeName owner m = madeName owner' n) :
    owner = owner' ∧ m = n := by
  have hlist := congrArg String.toList h
  rw [toList_madeName, toList_madeName, List.cons.injEq] at hlist
  have hname : owner.toList = owner'.toList := by
    rw [← takeWhile_ne_append howner ('[' :: _) (by simp), hlist.2,
      takeWhile_ne_append howner' _ (by simp)]
  refine ⟨String.toList_inj.1 hname, ?_⟩
  have hrest := hlist.2
  rw [hname, List.append_cancel_left_eq, List.cons.injEq, List.append_cancel_right_eq] at hrest
  have hvalue := congrArg (fun digits => Nat.ofDigitChars 10 digits 0) hrest.2
  simpa [Nat.toString_eq_ofList_toDigits] using hvalue

theorem madeName_ne_of_isIdentifier {name owner : String} {n : Nat}
    (h : isIdentifier name.toList = true) : name ≠ madeName owner n := by
  rintro rfl
  rw [toList_madeName] at h
  simp [isIdentifier, isIdentifierStart] at h

end Names

section Runs

variable {owner : String}

inductive Makes (owner : String) : Made → Made → Prop where
  | next (made : Made) (alternatives : List Alternative) :
      Makes owner made ⟨made.count + 1,
        made.rules ++ [⟨madeName owner (made.count + 1), alternatives⟩]⟩

abbrev MakesAll (owner : String) : Made → Made → Prop := Relation.ReflTransGen (Makes owner)

theorem makesAll_make (owner : String) (alternatives : Symbol → List Alternative) (made : Made) :
    MakesAll owner made (make owner alternatives made).2 :=
  .single (.next made _)

theorem makesAll_repeated (repetition : Option Repetition) (symbol : Symbol) (made : Made) :
    MakesAll owner made (repeated owner repetition symbol made).2 := by
  cases repetition with
  | none => exact .refl
  | some r => exact makesAll_make owner _ made

mutual

theorem Item.makesAll_lower : ∀ (item : Item) (made : Made),
    MakesAll owner made (item.lower owner made).2
  | .reference name repetition, made => makesAll_repeated repetition name made
  | .terminal lexeme repetition, made => makesAll_repeated repetition lexeme made
  | .group alternatives repetition, made => by
    have hbody := makesAll_lowerAlternatives alternatives made
    have hmake := makesAll_make owner (fun _ => (lowerAlternatives owner alternatives made).1)
      (lowerAlternatives owner alternatives made).2
    exact (hbody.trans hmake).trans (makesAll_repeated repetition _ _)

theorem makesAll_lowerSequence : ∀ (items : List Item) (made : Made),
    MakesAll owner made (lowerSequence owner items made).2
  | [], _ => .refl
  | item :: items, made =>
    (item.makesAll_lower made).trans (makesAll_lowerSequence items (item.lower owner made).2)

theorem makesAll_lowerAlternatives : ∀ (alternatives : List (List Item)) (made : Made),
    MakesAll owner made (lowerAlternatives owner alternatives made).2
  | [], _ => .refl
  | items :: rest, made =>
    (makesAll_lowerSequence items made).trans
      (makesAll_lowerAlternatives rest (lowerSequence owner items made).2)

end

theorem MakesAll.subset {made made' : Made} (h : MakesAll owner made made') :
    made.rules ⊆ made'.rules := by
  induction h with
  | refl => exact List.Subset.refl made.rules
  | tail _ hstep ih =>
    cases hstep
    exact List.Subset.trans ih (List.subset_append_left _ _)

/-- Every name that is given out is the name of a rule, so the counter tells how many rules are made. -/
theorem MakesAll.count_eq_length {made : Made} (h : MakesAll owner {} made) :
    made.count = made.rules.length := by
  induction h with
  | refl => rfl
  | tail _ hstep ih =>
    cases hstep
    rw [List.length_append, List.length_singleton, ih]

theorem MakesAll.names_eq {made : Made} (h : MakesAll owner {} made) :
    made.rules.map Rule.name =
      (List.range made.rules.length).map fun n => madeName owner (n + 1) := by
  induction h with
  | refl => rfl
  | tail hmade hstep ih =>
    cases hstep
    rw [List.map_append, ih, MakesAll.count_eq_length hmade, List.length_append,
      List.length_singleton, List.range_succ, List.map_append]
    rfl

end Runs

section Distinct

variable (definition : Definition)

def Definition.made : List Rule := (lowerAlternatives definition.name definition.body {}).2.rules

theorem Definition.lower_eq : definition.lower =
    ⟨definition.name, (lowerAlternatives definition.name definition.body {}).1⟩ ::
      definition.made := rfl

theorem Definition.names_made : definition.made.map Rule.name =
    (List.range definition.made.length).map fun n => madeName definition.name (n + 1) :=
  (makesAll_lowerAlternatives definition.body {}).names_eq

variable {definition}

theorem Definition.exists_madeName {rule : Rule} (h : rule ∈ definition.made) :
    ∃ n, rule.name = madeName definition.name n := by
  have hname := List.mem_map_of_mem (f := Rule.name) h
  rw [definition.names_made] at hname
  obtain ⟨n, _, hn⟩ := List.mem_map.1 hname
  exact ⟨n + 1, hn.symm⟩

theorem Definition.nodup_names_lower (h : isIdentifier definition.name.toList = true) :
    (definition.lower.map Rule.name).Nodup := by
  have hbracket : '[' ∉ definition.name.toList := not_mem_of_isIdentifier h rfl rfl
  rw [definition.lower_eq, List.map_cons, List.nodup_cons]
  constructor
  · intro hmem
    obtain ⟨rule, hrule, hname⟩ := List.mem_map.1 hmem
    obtain ⟨n, hn⟩ := exists_madeName hrule
    exact madeName_ne_of_isIdentifier h (hname.symm.trans hn)
  · rw [definition.names_made]
    refine List.Nodup.map ?_ List.nodup_range
    intro m n hmn
    have := (madeName_inj hbracket hbracket hmn).2
    omega

theorem Definition.eq_name_of_mem_lower {other : Definition}
    (h : isIdentifier definition.name.toList = true) (h' : isIdentifier other.name.toList = true)
    {rule rule' : Rule} (hrule : rule ∈ definition.lower) (hrule' : rule' ∈ other.lower)
    (hname : rule.name = rule'.name) : definition.name = other.name := by
  have hbracket : '[' ∉ definition.name.toList := not_mem_of_isIdentifier h rfl rfl
  have hbracket' : '[' ∉ other.name.toList := not_mem_of_isIdentifier h' rfl rfl
  rw [Definition.lower_eq, List.mem_cons] at hrule hrule'
  rcases hrule with rfl | hrule <;> rcases hrule' with rfl | hrule'
  · exact hname
  · obtain ⟨n, hn⟩ := exists_madeName hrule'
    exact absurd (hname.trans hn) (madeName_ne_of_isIdentifier h)
  · obtain ⟨n, hn⟩ := exists_madeName hrule
    exact absurd (hname.symm.trans hn) (madeName_ne_of_isIdentifier h')
  · obtain ⟨m, hm⟩ := exists_madeName hrule
    obtain ⟨n, hn⟩ := exists_madeName hrule'
    exact (madeName_inj hbracket hbracket' (hm.symm.trans (hname.trans hn))).1

theorem Document.nodup_names_lower {document : Document}
    (hnames : ∀ definition ∈ document, isIdentifier definition.name.toList = true)
    (hdistinct : (document.map Definition.name).Nodup) :
    (document.lower.map Rule.name).Nodup := by
  rw [Document.lower, List.map_flatMap, List.nodup_flatMap]
  constructor
  · intro definition hdefinition
    exact Definition.nodup_names_lower (hnames definition hdefinition)
  · refine (List.pairwise_map.1 hdistinct).imp_of_mem ?_
    intro definition other hdefinition hother hne name hname hname'
    obtain ⟨rule, hrule, rfl⟩ := List.mem_map.1 hname
    obtain ⟨rule', hrule', heq⟩ := List.mem_map.1 hname'
    exact hne (Definition.eq_name_of_mem_lower (hnames definition hdefinition)
      (hnames other hother) hrule hrule' heq.symm)

theorem Document.mem_names_or_madeName {document : Document} {name : String}
    (h : name ∈ document.lower.map Rule.name) :
    name ∈ document.map Definition.name ∨ ∃ owner n, name = madeName owner n := by
  obtain ⟨rule, hrule, rfl⟩ := List.mem_map.1 h
  obtain ⟨definition, hdefinition, hrule⟩ := List.mem_flatMap.1 hrule
  rw [definition.lower_eq, List.mem_cons] at hrule
  rcases hrule with rfl | hrule
  · exact .inl (List.mem_map_of_mem hdefinition)
  · obtain ⟨n, hn⟩ := Definition.exists_madeName hrule
    exact .inr ⟨definition.name, n, hn⟩

end Distinct

end GrammarCompletion.Ebnf
