import GrammarCompletion.Proofs.Ebnf.Reading

/-! Completing a text that breaks off. What the tokens in front of a place are does not depend on the
text behind it, as long as that text cannot be taken for the continuation of what stands in front: of
an identifier, of a comment, or of the beginning of one. So tokens that some further tokens complete
to a document make a text that some further text completes. -/

open GrammarCompletion.Ebnf.Parser

namespace GrammarCompletion.Ebnf

section Layout

theorem throughBlockEnd?_eq_none_iff {cs : List Char} :
    throughBlockEnd? cs = none ↔ ¬ ['*', '/'] <:+: cs := by
  fun_induction throughBlockEnd? cs with
  | case1 => simp
  | case2 cs =>
    have hin : ['*', '/'] <:+: '*' :: '/' :: cs := ⟨[], cs, rfl⟩
    simp [hin]
  | case3 c cs hc ih =>
    have hpre : ¬ ['*', '/'] <+: c :: cs := by
      intro hpre
      obtain ⟨rfl, tail, htail⟩ := List.cons_prefix_cons.1 hpre
      exact hc tail rfl htail.symm
    rw [Option.map_eq_none_iff, ih, List.infix_cons_iff, not_or]
    simp only [hpre, not_false_eq_true, true_and]

structure BeginsPlain (cs : List Char) : Prop where
  blank : ∀ c ∈ cs.head?, isBlank c = false
  line : ¬ ['/', '/'] <+: cs
  block : ∀ ds, cs = '/' :: '*' :: ds → ¬ ['*', '/'] <:+: ds

theorem layoutPiece?_eq_none_iff {cs : List Char} : layoutPiece? cs = none ↔ BeginsPlain cs := by
  fun_cases layoutPiece? cs with
  | case1 =>
    simp only [true_iff]
    exact ⟨by simp, by simp, by simp⟩
  | case2 cs =>
    simp only [reduceCtorEq, false_iff]
    intro h
    exact h.line ⟨cs, rfl⟩
  | case3 cs =>
    rw [Option.map_eq_none_iff, throughBlockEnd?_eq_none_iff]
    constructor
    · intro hopen
      refine ⟨?_, by simp, ?_⟩
      · intro c hc
        rw [← Option.some.inj hc]
        decide
      · intro ds hds
        have htail : cs = ds := by simpa using hds
        rwa [← htail]
    · intro h
      exact h.block cs rfl
  | case4 c cs hline hblock hblank =>
    simp only [reduceCtorEq, false_iff]
    intro h
    have hno := h.blank c rfl
    rw [hblank] at hno
    exact Bool.false_ne_true hno.symm
  | case5 c cs hline hblock hblank =>
    simp only [true_iff]
    refine ⟨?_, ?_, ?_⟩
    · intro d hd
      rw [← Option.some.inj hd]
      simpa using hblank
    · intro hpre
      obtain ⟨hc, tail, htail⟩ := List.cons_prefix_cons.1 hpre
      exact hline tail hc.symm htail.symm
    · intro ds hds
      obtain ⟨hc, htail⟩ := List.cons.inj hds
      exact absurd htail (hblock ds hc)

theorem layout_eq_nil_iff {cs : List Char} : layout cs = [] ↔ BeginsPlain cs := by
  rw [← layoutPiece?_eq_none_iff]
  constructor
  · intro h
    cases hpiece : layoutPiece? cs with
    | none => rfl
    | some piece =>
      rw [layout_of_some hpiece] at h
      exact absurd (List.append_eq_nil_iff.1 h).1 (layoutPiece?_ne_nil hpiece)
  · exact layout_of_none

theorem blockEnd_not_infix {front rest tail : List Char} (hslash : '/' ∉ tail)
    (h : ¬ ['*', '/'] <:+: front ++ rest) : ¬ ['*', '/'] <:+: front ++ tail := by
  rintro ⟨before, behind, heq⟩
  apply h
  rcases List.append_eq_append_iff.1 heq.symm with ⟨common, hcommon, htail⟩ | ⟨common, hfront, _⟩
  · -- The mark would end in the tail, unless it ends where the tail begins.
    cases hlast : common.getLast? with
    | none =>
      have hnil : common = [] := List.getLast?_eq_none_iff.1 hlast
      rw [hnil, List.append_nil] at hcommon
      exact ⟨before, rest, by rw [hcommon]⟩
    | some c =>
      have hc : c = '/' := by
        have hends := congrArg List.getLast? hcommon
        rw [List.getLast?_append, List.getLast?_append, hlast] at hends
        simpa using hends.symm
      have hmem : c ∈ tail := by
        rw [htail]
        exact List.mem_append_left _ (List.mem_of_getLast? hlast)
      exact absurd (hc ▸ hmem) hslash
  · exact ⟨before, common ++ rest, by rw [hfront]; simp⟩

theorem BeginsPlain.replace {front rest tail : List Char} (h : BeginsPlain (front ++ rest))
    (hfront : front ≠ []) (hslash : '/' ∉ tail) : BeginsPlain (front ++ tail) := by
  obtain ⟨c, front, rfl⟩ := List.exists_cons_of_ne_nil hfront
  refine ⟨h.blank, ?_, ?_⟩
  · intro hpre
    obtain ⟨hc, hnext⟩ := List.cons_prefix_cons.1 hpre
    cases front with
    | nil => exact hslash (hnext.subset List.mem_cons_self)
    | cons d front =>
      have hd := (List.cons_prefix_cons.1 hnext).1
      apply h.line
      rw [← hc, ← hd]
      exact ⟨front ++ rest, rfl⟩
  · intro ds hds
    obtain ⟨hc, hnext⟩ := List.cons.inj hds
    cases front with
    | nil =>
      -- The comment begins in the tail, where no slash ends it.
      intro hin
      have htail : tail = '*' :: ds := hnext
      have hmem : '/' ∈ ds := hin.subset (by simp)
      apply hslash
      rw [htail]
      exact List.mem_cons_of_mem _ hmem
    | cons d front =>
      obtain ⟨hd, hbody⟩ := List.cons.inj hnext
      rw [← hbody]
      apply blockEnd_not_infix hslash
      apply h.block
      rw [hc, hd]
      rfl

end Layout

/-- The tail may stand where the rest stood: it continues neither an identifier nor a comment. -/
structure Replaces (rest tail : List Char) : Prop where
  slash_not_mem : '/' ∉ tail
  head : ∀ c ∈ tail.head?, isIdentifierRest c = false
  newline : rest = [] → ∀ c ∈ tail.head?, c = '\n'

section Replacement

variable {rest tail : List Char}

theorem Replaces.nil (rest : List Char) : Replaces rest [] :=
  ⟨List.not_mem_nil, by simp, by simp⟩

theorem Replaces.afterLayout_gap (h : Replaces rest tail) {behind inner : List Char}
    (hinner : afterLayout behind = inner ++ rest) :
    afterLayout (layout behind ++ (inner ++ tail)) = afterLayout (inner ++ tail) := by
  obtain ⟨body, last, hbody, hlast, hends, hgap⟩ := isGap_layout behind
  rw [hgap, List.append_assoc, hbody.afterLayout_append]
  obtain rfl | ⟨comment, hcomment, rfl⟩ := hlast
  · rfl
  · -- A line comment that lacks its line feed had nothing behind it.
    have hend : inner ++ rest = [] := by
      rw [← hinner]
      exact hends.resolve_left (List.cons_ne_nil _ _)
    obtain ⟨hnil, hrest⟩ := List.append_eq_nil_iff.1 hend
    have hnewline := h.newline hrest
    rw [hnil, List.nil_append]
    cases tail with
    | nil =>
      rw [List.append_nil, afterLayout_nil]
      exact IsOpenEnd.afterLayout_eq_nil (.inr ⟨comment, hcomment, rfl⟩)
    | cons c tail =>
      have hc : c = '\n' := hnewline c rfl
      have hline := (IsLayoutPiece.lineComment hcomment).afterLayout_append tail
      have hfeed := (IsLayoutPiece.blank (c := '\n') rfl).afterLayout_append tail
      rw [List.cons_append, List.cons_append, List.append_assoc] at hline
      rw [hc]
      exact hline.trans hfeed.symm

theorem Meets.exists_append {tokens : List (List Char)} {text : List Char}
    (h : Meets rest tokens text) : ∃ front, text = front ++ rest := by
  induction h with
  | nil => exact ⟨[], rfl⟩
  | @cons token behind tokens _ _ _ ih =>
    obtain ⟨inner, hinner⟩ := ih
    refine ⟨token ++ (layout behind ++ inner), ?_⟩
    rw [List.append_assoc, List.append_assoc, ← hinner, layout_append_afterLayout]

theorem Meets.replace (ht : Replaces rest tail) {tokens : List (List Char)}
    {front text : List Char} (h : Meets rest tokens text) (htext : text = front ++ rest) :
    Meets (afterLayout tail) tokens (afterLayout (front ++ tail)) := by
  induction h generalizing front with
  | nil =>
    have hnil : front = [] := by simpa using htext
    rw [hnil]
    exact .nil
  | @cons token behind tokens htoken hbehind hmeets ih =>
    obtain ⟨inner, hinner⟩ := hmeets.exists_append
    have hsplit : behind = layout behind ++ inner ++ rest := by
      rw [List.append_assoc, ← hinner, layout_append_afterLayout]
    have hfront : front = token ++ (layout behind ++ inner) := by
      rw [hsplit, ← List.append_assoc] at htext
      exact (List.append_cancel_right htext).symm
    have hlayout : layout (token ++ (layout behind ++ inner ++ tail)) = [] := by
      rw [← List.append_assoc]
      have hne : token ++ (layout behind ++ inner) ≠ [] :=
        fun hnil => htoken.1 (List.append_eq_nil_iff.1 hnil).1
      have hold : layout (token ++ (layout behind ++ inner) ++ rest) = [] := by
        rw [List.append_assoc, ← hsplit]
        exact htoken.2
      rw [layout_eq_nil_iff] at hold ⊢
      exact hold.replace hne ht.slash_not_mem
    rw [hfront, List.append_assoc, afterLayout_of_layout_eq_nil hlayout]
    refine .cons ⟨htoken.1, hlayout⟩ ?_ ?_
    · intro hidentifier c hc
      have hold := hbehind hidentifier
      rw [hsplit] at hold
      cases hgap : layout behind ++ inner with
      | nil =>
        rw [hgap] at hc
        exact ht.head c hc
      | cons d gap =>
        rw [hgap] at hc hold
        exact hold c hc
    · rw [List.append_assoc, ht.afterLayout_gap hinner]
      exact ih hinner

theorem Meets.replace_text (ht : Replaces rest tail) {tokens : List (List Char)}
    {before : List Char} (h : Meets rest tokens (afterLayout (before ++ rest))) :
    Meets (afterLayout tail) tokens (afterLayout (before ++ tail)) := by
  obtain ⟨inner, hinner⟩ := h.exists_append
  have hbefore : before = layout (before ++ rest) ++ inner := by
    have hsplit := layout_append_afterLayout (before ++ rest)
    rw [hinner, ← List.append_assoc] at hsplit
    exact (List.append_cancel_right hsplit).symm
  have hgap := ht.afterLayout_gap hinner
  rw [← List.append_assoc, ← hbefore] at hgap
  rw [hgap]
  exact h.replace ht hinner

end Replacement

def Accepted (cs : List Char) : Prop := ∃ document, parse (String.ofList cs) = .ok document

def Completable (cs : List Char) : Prop := ∃ tail, Accepted (cs ++ tail)

section Completion

def IsCloser (token : List Char) : Prop :=
  token = [')'] ∨ token = ['<', 'x', '>'] ∨ token = [':', ':', '=']

/-- Some closing tokens make a document of the given ones. -/
def Completes (done : List (List Char)) : Prop :=
  ∃ more document, (∀ token ∈ more, IsCloser token) ∧ SpellsAll document (done ++ more)

variable {rest before : List Char} {done more : List (List Char)}

theorem stream_flatten (h : ∀ token ∈ more, IsCloser token) : Stream more more.flatten := by
  induction more with
  | nil => exact .nil
  | cons token more ih =>
    obtain ⟨htoken, hmore⟩ := List.forall_mem_cons.1 h
    have hstream := ih hmore
    have hcloser : IsToken token ∧ isIdentifier token = false := by
      rcases htoken with rfl | rfl | rfl
      · exact ⟨.of_head (by decide) (by decide), by decide⟩
      · exact ⟨.of_head (by decide) (by decide), by decide⟩
      · exact ⟨.of_head (by decide) (by decide), by decide⟩
    rw [List.flatten_cons]
    refine .cons ⟨hcloser.1.ne_nil, hcloser.1.layout_append _⟩ ?_ ?_
    · intro hidentifier
      rw [hcloser.2] at hidentifier
      exact absurd hidentifier Bool.false_ne_true
    · rw [hstream.afterLayout_eq]
      exact hstream

theorem slash_not_mem_flatten (h : ∀ token ∈ more, IsCloser token) : '/' ∉ more.flatten := by
  intro hmem
  obtain ⟨token, htoken, hslash⟩ := List.mem_flatten.1 hmem
  rcases h token htoken with rfl | rfl | rfl
  · simp at hslash
  · simp at hslash
  · simp at hslash

theorem accepted_of_meets {tail : List Char} {document : Document}
    (h : Meets rest done (afterLayout (before ++ rest))) (ht : Replaces rest tail)
    (hspells : SpellsAll document (done ++ more)) (hstream : Stream more (afterLayout tail)) :
    Accepted (before ++ tail) := by
  refine ⟨document, parse_of_stream hspells ?_⟩
  rw [String.toList_ofList]
  exact (h.replace_text ht).append hstream

theorem accepted_of_spellsAll {document : Document}
    (h : Meets rest done (afterLayout (before ++ rest))) (hspells : SpellsAll document done) :
    Accepted before := by
  have hstream : Stream [] (afterLayout []) := by
    rw [afterLayout_nil]
    exact .nil
  have haccepted := accepted_of_meets h (.nil rest) (by rwa [List.append_nil]) hstream
  rwa [List.append_nil] at haccepted

theorem completable_of_completes (h : Meets rest done (afterLayout (before ++ rest)))
    (hdone : Completes done) : Completable before := by
  obtain ⟨more, document, hmore, hspells⟩ := hdone
  have hstream := stream_flatten hmore
  have hfeed := (IsLayoutPiece.blank (c := '\n') rfl).afterLayout_append more.flatten
  refine ⟨'\n' :: more.flatten, accepted_of_meets h ⟨?_, ?_, ?_⟩ hspells ?_⟩
  · intro hmem
    rcases List.mem_cons.1 hmem with heq | hmem
    · exact absurd heq (by decide)
    · exact slash_not_mem_flatten hmore hmem
  · intro c hc
    rw [← Option.some.inj hc]
    decide
  · intro _ c hc
    exact (Option.some.inj hc).symm
  · rw [List.singleton_append] at hfeed
    rw [hfeed, hstream.afterLayout_eq]
    exact hstream

theorem completable_of_completes_name {behind : List Char}
    (h : Meets ('<' :: behind) done (afterLayout (before ++ '<' :: behind)))
    (hdone : Completes (done ++ [['<', 'x', '>']])) : Completable (before ++ ['<']) := by
  obtain ⟨more, document, hmore, hspells⟩ := hdone
  rw [List.append_assoc, List.singleton_append] at hspells
  have hall : ∀ token ∈ ['<', 'x', '>'] :: more, IsCloser token :=
    List.forall_mem_cons.2 ⟨.inr (.inl rfl), hmore⟩
  have hstream := stream_flatten hall
  refine ⟨'x' :: '>' :: more.flatten, ?_⟩
  rw [List.append_assoc, List.singleton_append]
  refine accepted_of_meets h ⟨slash_not_mem_flatten hall, ?_, ?_⟩ hspells ?_
  · intro c hc
    rw [← Option.some.inj hc]
    decide
  · intro hnil
    exact absurd hnil (List.cons_ne_nil _ _)
  · have heq := hstream.afterLayout_eq
    rw [List.flatten_cons] at heq hstream
    change Stream _ (afterLayout (['<', 'x', '>'] ++ more.flatten))
    rw [heq]
    exact hstream

end Completion

end GrammarCompletion.Ebnf
