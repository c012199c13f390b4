import GrammarCompletion.Proofs.Ebnf.MadeRules
import GrammarCompletion.Proofs.Ebnf.Meaning

/-! The numbers of the made rules. The groups and repetitions of a definition are numbered in
post-order: what stands inside one comes before it, and a group comes before the operator behind it. So
the rules that are made inside a phrase carry consecutive numbers, the last one that of the phrase
itself, and the flat rules can be told from the number of rules made before, without these rules. -/

namespace GrammarCompletion.Ebnf

section PostOrder

/-- What gets a rule of its own: a group, or a repetition of an item, kept without its operator. -/
inductive Composite where
  | group (alternatives : List (List Item))
  | repeated (item : Item) (repetition : Repetition)

def repetitionsOf (item : Item) (operator : Option Repetition) : List Composite :=
  operator.toList.map (.repeated item)

mutual

def Item.composites : Item → List Composite
  | .reference name operator => repetitionsOf (.reference name none) operator
  | .terminal lexeme operator => repetitionsOf (.terminal lexeme none) operator
  | .group alternatives operator =>
    compositesOfChoice alternatives ++
      .group alternatives :: repetitionsOf (.group alternatives none) operator

def compositesOfSequence : List Item → List Composite
  | [] => []
  | item :: items => item.composites ++ compositesOfSequence items

def compositesOfChoice : List (List Item) → List Composite
  | [] => []
  | items :: rest => compositesOfSequence items ++ compositesOfChoice rest

end

mutual

def Item.groups : Item → Nat
  | .reference _ _ => 0
  | .terminal _ _ => 0
  | .group alternatives _ => groupsOfChoice alternatives + 1

def groupsOfSequence : List Item → Nat
  | [] => 0
  | item :: items => item.groups + groupsOfSequence items

def groupsOfChoice : List (List Item) → Nat
  | [] => 0
  | items :: rest => groupsOfSequence items + groupsOfChoice rest

end

mutual

def Item.operators : Item → Nat
  | .reference _ operator => operator.toList.length
  | .terminal _ operator => operator.toList.length
  | .group alternatives operator => operatorsOfChoice alternatives + operator.toList.length

def operatorsOfSequence : List Item → Nat
  | [] => 0
  | item :: items => item.operators + operatorsOfSequence items

def operatorsOfChoice : List (List Item) → Nat
  | [] => 0
  | items :: rest => operatorsOfSequence items + operatorsOfChoice rest

end

theorem repetitionsOf_none (item : Item) : repetitionsOf item none = [] := rfl

theorem repetitionsOf_some (item : Item) (r : Repetition) :
    repetitionsOf item (some r) = [.repeated item r] := rfl

@[simp] theorem length_repetitionsOf (item : Item) (operator : Option Repetition) :
    (repetitionsOf item operator).length = operator.toList.length := by
  rw [repetitionsOf, List.length_map]

mutual

theorem Item.length_composites : ∀ item : Item,
    item.composites.length = item.groups + item.operators
  | .reference _ _ => by simp [Item.composites, Item.groups, Item.operators]
  | .terminal _ _ => by simp [Item.composites, Item.groups, Item.operators]
  | .group alternatives _ => by
    have hinner := length_compositesOfChoice alternatives
    simp only [Item.composites, Item.groups, Item.operators, List.length_append, List.length_cons,
      length_repetitionsOf]
    omega

theorem length_compositesOfSequence : ∀ items : List Item,
    (compositesOfSequence items).length = groupsOfSequence items + operatorsOfSequence items
  | [] => rfl
  | item :: items => by
    have hitem := item.length_composites
    have hitems := length_compositesOfSequence items
    simp only [compositesOfSequence, groupsOfSequence, operatorsOfSequence, List.length_append]
    omega

theorem length_compositesOfChoice : ∀ alternatives : List (List Item),
    (compositesOfChoice alternatives).length =
      groupsOfChoice alternatives + operatorsOfChoice alternatives
  | [] => rfl
  | items :: rest => by
    have hitems := length_compositesOfSequence items
    have hrest := length_compositesOfChoice rest
    simp only [compositesOfChoice, groupsOfChoice, operatorsOfChoice, List.length_append]
    omega

end

end PostOrder

section Numbers

variable (owner : String)

/-- What an item becomes where `n` rules are made before it: its own name or lexeme, or the rule of the
last composite in it. -/
def Item.symbolFrom (n : Nat) : Item → Symbol
  | .reference name none => name
  | .terminal lexeme none => lexeme
  | item => madeName owner (n + item.composites.length)

def sequenceFrom : Nat → List Item → Alternative
  | _, [] => []
  | n, item :: items =>
    item.symbolFrom owner n :: sequenceFrom (n + item.composites.length) items

def choiceFrom : Nat → List (List Item) → List Alternative
  | _, [] => []
  | n, items :: rest =>
    sequenceFrom owner n items :: choiceFrom (n + (compositesOfSequence items).length) rest

/-- The alternatives of the rule that is made for a composite where `n` rules are made before it. The
last of these are made for what stands inside it. -/
def Composite.alternatives (n : Nat) : Composite → List Alternative
  | .group alternatives =>
    choiceFrom owner (n - (compositesOfChoice alternatives).length) alternatives
  | .repeated item repetition =>
    repetition.alternatives (item.symbolFrom owner (n - item.composites.length))
      (madeName owner (n + 1))

def rulesFrom (n : Nat) (composites : List Composite) : List Rule :=
  (composites.zipIdx n).map fun (composite, before) =>
    ⟨madeName owner (before + 1), composite.alternatives owner before⟩

variable {owner}

@[simp] theorem length_rulesFrom (n : Nat) (composites : List Composite) :
    (rulesFrom owner n composites).length = composites.length := by
  rw [rulesFrom, List.length_map, List.length_zipIdx]

theorem rulesFrom_append (n : Nat) (first second : List Composite) :
    rulesFrom owner n (first ++ second) =
      rulesFrom owner n first ++ rulesFrom owner (n + first.length) second := by
  rw [rulesFrom, List.zipIdx_append, List.map_append]
  rfl

theorem rulesFrom_nil (n : Nat) : rulesFrom owner n [] = [] := rfl

theorem rulesFrom_group (n : Nat) (alternatives : List (List Item)) :
    rulesFrom owner (n + (compositesOfChoice alternatives).length) [.group alternatives] =
      [⟨madeName owner (n + (compositesOfChoice alternatives).length + 1),
        choiceFrom owner n alternatives⟩] := by
  simp only [rulesFrom, List.zipIdx_singleton, List.map_singleton, Composite.alternatives,
    Nat.add_sub_cancel]

theorem rulesFrom_repeated (n : Nat) (item : Item) (r : Repetition) :
    rulesFrom owner (n + item.composites.length) [.repeated item r] =
      [⟨madeName owner (n + item.composites.length + 1),
        r.alternatives (item.symbolFrom owner n)
          (madeName owner (n + item.composites.length + 1))⟩] := by
  simp only [rulesFrom, List.zipIdx_singleton, List.map_singleton, Composite.alternatives,
    Nat.add_sub_cancel]

theorem Item.composites_group (alternatives : List (List Item)) :
    (Item.group alternatives none).composites =
      compositesOfChoice alternatives ++ [.group alternatives] := rfl

theorem Item.symbolFrom_group (alternatives : List (List Item)) (n : Nat) :
    (Item.group alternatives none).symbolFrom owner n =
      madeName owner (n + (compositesOfChoice alternatives).length + 1) := by
  have hsymbol : (Item.group alternatives none).symbolFrom owner n =
      madeName owner (n + (Item.group alternatives none).composites.length) := rfl
  rw [hsymbol, Item.composites_group, List.length_append, List.length_singleton, Nat.add_assoc]

theorem Item.composites_eq (item : Item) :
    item.composites = item.bare.composites ++ repetitionsOf item.bare item.repetition := by
  cases item with
  | reference | terminal => rfl
  | group alternatives operator =>
    rw [Item.composites, Item.bare, Item.composites, List.append_assoc]
    rfl

theorem Item.symbolFrom_of_repetition {item : Item} {r : Repetition} (h : item.repetition = some r)
    (n : Nat) :
    item.symbolFrom owner n = madeName owner (n + item.bare.composites.length + 1) := by
  have hlength : item.composites.length = item.bare.composites.length + 1 := by
    rw [item.composites_eq, h, repetitionsOf_some, List.length_append, List.length_singleton]
  have hsymbol : item.symbolFrom owner n = madeName owner (n + item.composites.length) := by
    cases item with
    | reference _ operator | terminal _ operator =>
      obtain rfl : operator = some r := h
      rfl
    | group => rfl
  rw [hsymbol, hlength, Nat.add_assoc]

def Made.extend (owner : String) (made : Made) (composites : List Composite) : Made where
  count := made.count + composites.length
  rules := made.rules ++ rulesFrom owner made.count composites

theorem Made.extend_nil (made : Made) : made.extend owner [] = made := by
  rw [extend, rulesFrom_nil, List.append_nil]
  rfl

theorem Made.extend_append (made : Made) (first second : List Composite) :
    (made.extend owner first).extend owner second = made.extend owner (first ++ second) := by
  simp only [extend, rulesFrom_append, List.length_append, List.append_assoc, Nat.add_assoc]

theorem make_eq_extend {alternatives : Symbol → List Alternative} {made : Made} {last : Composite}
    (h : last.alternatives owner made.count = alternatives (madeName owner (made.count + 1))) :
    make owner alternatives made = (madeName owner (made.count + 1), made.extend owner [last]) := by
  have hrule : rulesFrom owner made.count [last] =
      [⟨madeName owner (made.count + 1), alternatives (madeName owner (made.count + 1))⟩] := by
    rw [← h]
    rfl
  rw [Made.extend, hrule]
  rfl

theorem repeated_eq (item : Item) (made : Made) :
    repeated owner item.repetition (item.bare.symbolFrom owner made.count)
        (made.extend owner item.bare.composites) =
      (item.symbolFrom owner made.count, made.extend owner item.composites) := by
  rw [item.composites_eq, ← Made.extend_append]
  cases hr : item.repetition with
  | none =>
    rw [repetitionsOf_none, Made.extend_nil, Item.bare_eq_self hr]
    rfl
  | some r =>
    rw [repetitionsOf_some, Item.symbolFrom_of_repetition hr, repeated]
    refine make_eq_extend ?_
    simp only [Made.extend, Composite.alternatives, Nat.add_sub_cancel]

theorem make_group_eq (alternatives : List (List Item)) (made : Made) :
    make owner (fun _ => choiceFrom owner made.count alternatives)
        (made.extend owner (compositesOfChoice alternatives)) =
      ((Item.group alternatives none).symbolFrom owner made.count,
        made.extend owner (Item.group alternatives none).composites) := by
  rw [Item.symbolFrom_group, Item.composites_group, ← Made.extend_append]
  refine make_eq_extend ?_
  simp only [Made.extend, Composite.alternatives, Nat.add_sub_cancel]

mutual

theorem Item.lower_eq : ∀ (item : Item) (made : Made), item.lower owner made =
    (item.symbolFrom owner made.count, made.extend owner item.composites)
  | .reference name operator, made => by
    rw [← repeated_eq (.reference name operator) made, Item.bare, Item.composites]
    simp [Item.lower, Item.symbolFrom, repetitionsOf, Made.extend_nil, Item.repetition]
  | .terminal lexeme operator, made => by
    rw [← repeated_eq (.terminal lexeme operator) made, Item.bare, Item.composites]
    simp [Item.lower, Item.symbolFrom, repetitionsOf, Made.extend_nil, Item.repetition]
  | .group alternatives operator, made => by
    -- First what stands inside, then the group, then its operator.
    rw [Item.lower, lowerAlternatives_eq alternatives made]
    simp only [make_group_eq]
    exact repeated_eq (.group alternatives operator) made

theorem lowerSequence_eq : ∀ (items : List Item) (made : Made), lowerSequence owner items made =
    (sequenceFrom owner made.count items, made.extend owner (compositesOfSequence items))
  | [], made => by rw [lowerSequence, sequenceFrom, compositesOfSequence, Made.extend_nil]
  | item :: items, made => by
    rw [lowerSequence, item.lower_eq made]
    simp only [lowerSequence_eq items, Made.extend_append]
    rfl

theorem lowerAlternatives_eq : ∀ (alternatives : List (List Item)) (made : Made),
    lowerAlternatives owner alternatives made =
      (choiceFrom owner made.count alternatives,
        made.extend owner (compositesOfChoice alternatives))
  | [], made => by rw [lowerAlternatives, choiceFrom, compositesOfChoice, Made.extend_nil]
  | items :: rest, made => by
    rw [lowerAlternatives, lowerSequence_eq items made]
    simp only [lowerAlternatives_eq rest, Made.extend_append]
    rfl

end

variable (definition : Definition)

def Definition.composites : List Composite := compositesOfChoice definition.body

def Definition.madeCount : Nat := groupsOfChoice definition.body + operatorsOfChoice definition.body

theorem Definition.length_composites : definition.composites.length = definition.madeCount :=
  length_compositesOfChoice definition.body

def Definition.flatBody : List Alternative := choiceFrom definition.name 0 definition.body

/-- The flat rules of a definition: its own, then those of its composites in post-order. -/
theorem Definition.lower_eq_rulesFrom : definition.lower =
    ⟨definition.name, definition.flatBody⟩ ::
      rulesFrom definition.name 0 definition.composites := by
  rw [Definition.lower, lowerAlternatives_eq definition.body {}]
  rfl

theorem Definition.made_eq_rulesFrom :
    definition.made = rulesFrom definition.name 0 definition.composites :=
  (List.cons.inj definition.lower_eq_rulesFrom).2

theorem Definition.lower_eq_append :
    definition.lower = [⟨definition.name, definition.flatBody⟩] ++ definition.made := by
  rw [definition.made_eq_rulesFrom, definition.lower_eq_rulesFrom, List.singleton_append]

theorem Definition.length_made : definition.made.length = definition.madeCount := by
  rw [definition.made_eq_rulesFrom, length_rulesFrom, definition.length_composites]

theorem Definition.names_lower : definition.lower.map Rule.name =
    definition.name ::
      (List.range definition.madeCount).map fun n => madeName definition.name (n + 1) := by
  rw [definition.lower_eq, List.map_cons, definition.names_made, definition.length_made]

end Numbers

end GrammarCompletion.Ebnf
