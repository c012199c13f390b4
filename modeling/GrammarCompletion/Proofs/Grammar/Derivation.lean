import Mathlib.Data.List.Forall2
import Mathlib.Data.List.Nodup
import Mathlib.Logic.Relation
import GrammarCompletion.Grammar.Rule

/-! Context-free derivation over a flat rule table. A step replaces one name by one of its
alternatives, wherever the name stands. -/

namespace GrammarCompletion

theorem exists_mem_right_of_forall₂ {α β : Type} {R : α → β → Prop} {xs : List α} {ys : List β}
    (h : List.Forall₂ R xs ys) {x : α} (hx : x ∈ xs) : ∃ y ∈ ys, R x y := by
  induction h with
  | nil => simp at hx
  | cons hab _ ih =>
    rcases List.mem_cons.1 hx with rfl | hx
    · exact ⟨_, List.mem_cons_self, hab⟩
    · obtain ⟨y, hy, hxy⟩ := ih hx
      exact ⟨y, List.mem_cons_of_mem _ hy, hxy⟩

theorem exists_mem_left_of_forall₂ {α β : Type} {R : α → β → Prop} {xs : List α} {ys : List β}
    (h : List.Forall₂ R xs ys) {y : β} (hy : y ∈ ys) : ∃ x ∈ xs, R x y :=
  exists_mem_right_of_forall₂ h.flip hy

def Produces (rules : List Rule) (symbol : Symbol) (alternative : Alternative) : Prop :=
  ∃ rule ∈ rules, rule.name = symbol ∧ alternative ∈ rule.alternatives

inductive Rewrites (rules : List Rule) : List Symbol → List Symbol → Prop where
  | replace (front back : List Symbol) {symbol : Symbol} {alternative : Alternative}
      (h : Produces rules symbol alternative) :
      Rewrites rules (front ++ symbol :: back) (front ++ alternative ++ back)

abbrev Derives (rules : List Rule) : List Symbol → List Symbol → Prop :=
  Relation.ReflTransGen (Rewrites rules)

variable {rules : List Rule}

theorem Produces.mem_names {symbol : Symbol} {alternative : Alternative}
    (h : Produces rules symbol alternative) : symbol ∈ rules.map Rule.name := by
  obtain ⟨rule, hrule, rfl, _⟩ := h
  exact List.mem_map_of_mem hrule

theorem produces_iff_of_mem (hnodup : (rules.map Rule.name).Nodup) {rule : Rule}
    (hrule : rule ∈ rules) {alternative : Alternative} :
    Produces rules rule.name alternative ↔ alternative ∈ rule.alternatives := by
  constructor
  · rintro ⟨other, hother, hname, halt⟩
    rwa [← List.inj_on_of_nodup_map hnodup hother hrule hname]
  · intro halt
    exact ⟨rule, hrule, rfl, halt⟩

theorem Rewrites.append {u v : List Symbol} (h : Rewrites rules u v) (front back : List Symbol) :
    Rewrites rules (front ++ u ++ back) (front ++ v ++ back) := by
  obtain ⟨front', back', h⟩ := h
  simpa only [List.append_assoc, List.cons_append] using
    Rewrites.replace (front ++ front') (back' ++ back) h

theorem Derives.surround {u v : List Symbol} (h : Derives rules u v) (front back : List Symbol) :
    Derives rules (front ++ u ++ back) (front ++ v ++ back) := by
  induction h with
  | refl => exact .refl
  | tail _ hstep ih => exact ih.tail (hstep.append front back)

theorem Derives.append {u u' v v' : List Symbol} (hu : Derives rules u u')
    (hv : Derives rules v v') : Derives rules (u ++ v) (u' ++ v') := by
  have hfirst : Derives rules (u ++ v) (u' ++ v) := by
    simpa only [List.nil_append] using hu.surround [] v
  have hsecond : Derives rules (u' ++ v) (u' ++ v') := by
    simpa only [List.append_nil] using hv.surround u' []
  exact hfirst.trans hsecond

theorem Produces.derives {symbol : Symbol} {alternative : Alternative}
    (h : Produces rules symbol alternative) : Derives rules [symbol] alternative := by
  have hstep := Rewrites.replace [] [] h
  simp only [List.nil_append, List.append_nil] at hstep
  exact .single hstep

end GrammarCompletion
