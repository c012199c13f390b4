import GrammarCompletion.Ebnf.Layout
import GrammarCompletion.Proofs.Ebnf.Lexeme

/-! What layout looks like, said without the recogniser: a run of blanks, of line comments with
their line feed and of complete block comments. The recogniser steps over exactly such runs, and
over a line comment that the text ends with. -/

namespace GrammarCompletion.Ebnf

inductive IsLayoutPiece : List Char → Prop where
  | blank {c : Char} (h : isBlank c = true) : IsLayoutPiece [c]
  | lineComment {text : List Char} (h : '\n' ∉ text) :
      IsLayoutPiece ('/' :: '/' :: (text ++ ['\n']))
  | blockComment {text : List Char} (h : ¬ ['*', '/'] <:+: text) :
      IsLayoutPiece ('/' :: '*' :: (text ++ ['*', '/']))

inductive IsLayout : List Char → Prop where
  | nil : IsLayout []
  | cons {piece rest : List Char} (h : IsLayoutPiece piece) (tail : IsLayout rest) :
      IsLayout (piece ++ rest)

def IsOpenEnd (cs : List Char) : Prop :=
  cs = [] ∨ ∃ text, '\n' ∉ text ∧ cs = '/' :: '/' :: text

def afterLayout (cs : List Char) : List Char := cs.drop (layout cs).length

section BlockComments

theorem throughBlockEnd?_append {text : List Char} (h : ¬ ['*', '/'] <:+: text)
    (rest : List Char) :
    throughBlockEnd? (text ++ '*' :: '/' :: rest) = some (text ++ ['*', '/']) := by
  induction text with
  | nil => rfl
  | cons c text ih =>
    have htail := ih fun hin => h (hin.trans (List.suffix_cons c text).isInfix)
    -- A star at `c` closes nothing: the next character is not a slash, within `text` or behind it.
    have hc : ∀ ds, c = '*' → text ++ '*' :: '/' :: rest ≠ '/' :: ds := by
      rintro ds rfl hds
      cases text with
      | nil => simp at hds
      | cons d text =>
        obtain ⟨rfl, _⟩ := List.cons.inj hds
        exact h ⟨[], text, rfl⟩
    rw [List.cons_append, throughBlockEnd?.eq_3 c _ hc, htail]
    rfl

theorem exists_of_throughBlockEnd? {cs w : List Char} (h : throughBlockEnd? cs = some w) :
    ∃ text, ¬ ['*', '/'] <:+: text ∧ w = text ++ ['*', '/'] ∧ w <+: cs := by
  fun_induction throughBlockEnd? cs generalizing w with
  | case1 => simp at h
  | case2 cs =>
    obtain rfl := Option.some.inj h
    exact ⟨[], by simp, rfl, by simp⟩
  | case3 c cs hc ih =>
    obtain ⟨w, hw, rfl⟩ := Option.map_eq_some_iff.1 h
    obtain ⟨text, htext, rfl, rest, rfl⟩ := ih hw
    refine ⟨c :: text, ?_, rfl, by simp⟩
    rw [List.infix_cons_iff, not_or]
    refine ⟨?_, htext⟩
    rintro hpre
    obtain ⟨rfl, tail, htail⟩ := List.cons_prefix_cons.1 hpre
    rw [← htail] at hc
    exact hc _ rfl rfl

end BlockComments

section Recogniser

theorem layout_of_none {cs : List Char} (h : layoutPiece? cs = none) : layout cs = [] := by
  rw [layout]
  split
  · rfl
  · rename_i hsome
    simp [h] at hsome

theorem layout_of_some {cs piece : List Char} (h : layoutPiece? cs = some piece) :
    layout cs = piece ++ layout (cs.drop piece.length) := by
  rw [layout]
  split
  · rename_i hnone
    simp [h] at hnone
  · rename_i other hother
    obtain rfl := Option.some.inj (h.symm.trans hother)
    rfl

theorem layoutPiece?_blank {c : Char} (h : isBlank c = true) (cs : List Char) :
    layoutPiece? (c :: cs) = some [c] := by
  have hslash : c ≠ '/' := by
    rintro rfl
    simp [isBlank] at h
  rw [layoutPiece?.eq_4 c cs (fun _ hc => absurd hc hslash) (fun _ hc => absurd hc hslash),
    if_pos h]

theorem afterLayout_of_some (piece rest : List Char)
    (h : layoutPiece? (piece ++ rest) = some piece) :
    afterLayout (piece ++ rest) = afterLayout rest := by
  unfold afterLayout
  rw [layout_of_some h, List.length_append, List.drop_append, List.drop_append]
  simp

theorem afterLayout_nil : afterLayout [] = [] := by
  rw [afterLayout, layout_of_none layoutPiece?_nil]
  rfl

theorem IsLayoutPiece.afterLayout_append {piece : List Char} (h : IsLayoutPiece piece)
    (rest : List Char) : afterLayout (piece ++ rest) = afterLayout rest := by
  cases h with
  | blank hc => exact afterLayout_of_some [_] rest (layoutPiece?_blank hc rest)
  | @lineComment text htext =>
    -- The recogniser takes the comment and its line feed as two pieces.
    have hcomment : layoutPiece? (('/' :: '/' :: text) ++ '\n' :: rest) =
        some ('/' :: '/' :: text) := by
      change some ('/' :: '/' :: (text ++ '\n' :: rest).takeWhile (· ≠ '\n')) = _
      rw [takeWhile_ne_append htext ('\n' :: rest) (by simp)]
    have hfeed := afterLayout_of_some ['\n'] rest (layoutPiece?_blank rfl rest)
    rw [← hfeed]
    simpa using afterLayout_of_some ('/' :: '/' :: text) ('\n' :: rest) hcomment
  | blockComment htext =>
    refine afterLayout_of_some _ rest ?_
    change (throughBlockEnd? (_ ++ ['*', '/'] ++ rest)).map _ = _
    rw [List.append_assoc]
    change (throughBlockEnd? (_ ++ '*' :: '/' :: rest)).map _ = _
    rw [throughBlockEnd?_append htext]
    rfl

theorem IsLayout.afterLayout_append {gap : List Char} (h : IsLayout gap) (rest : List Char) :
    afterLayout (gap ++ rest) = afterLayout rest := by
  induction h with
  | nil => rfl
  | cons hpiece _ ih => rw [List.append_assoc, hpiece.afterLayout_append, ih]

theorem IsOpenEnd.afterLayout_eq_nil {cs : List Char} (h : IsOpenEnd cs) :
    afterLayout cs = [] := by
  obtain rfl | ⟨text, htext, rfl⟩ := h
  · exact afterLayout_nil
  · have hcomment : layoutPiece? (('/' :: '/' :: text) ++ []) = some ('/' :: '/' :: text) := by
      change some ('/' :: '/' :: (text ++ []).takeWhile (· ≠ '\n')) = _
      rw [takeWhile_ne_append htext [] (by simp)]
    simpa [afterLayout_nil] using afterLayout_of_some ('/' :: '/' :: text) [] hcomment

theorem layoutPiece?_prefix {cs piece : List Char} (h : layoutPiece? cs = some piece) :
    piece <+: cs := by
  unfold layoutPiece? at h
  split at h
  · simp at h
  · obtain rfl := Option.some.inj h
    simpa using List.takeWhile_prefix _
  · obtain ⟨w, hw, rfl⟩ := Option.map_eq_some_iff.1 h
    obtain ⟨_, _, _, hpre⟩ := exists_of_throughBlockEnd? hw
    simpa using hpre
  · split at h
    · obtain rfl := Option.some.inj h
      simp
    · simp at h

theorem layout_append_afterLayout (cs : List Char) : layout cs ++ afterLayout cs = cs := by
  induction cs using layout.induct with
  | case1 cs h => simp [afterLayout, layout_of_none h]
  | case2 cs piece h ih =>
    obtain ⟨rest, rfl⟩ := layoutPiece?_prefix h
    rw [List.drop_left] at ih
    rw [afterLayout_of_some piece rest h, layout_of_some h, List.drop_left, List.append_assoc, ih]

theorem afterLayout_of_layout_eq_nil {cs : List Char} (h : layout cs = []) :
    afterLayout cs = cs := by
  rw [afterLayout, h]
  rfl

theorem layout_afterLayout (cs : List Char) : layout (afterLayout cs) = [] := by
  induction cs using layout.induct with
  | case1 cs h =>
    have hnil := layout_of_none h
    rw [afterLayout_of_layout_eq_nil hnil, hnil]
  | case2 cs piece h ih =>
    obtain ⟨rest, rfl⟩ := layoutPiece?_prefix h
    rw [List.drop_left] at ih
    rw [afterLayout_of_some piece rest h]
    exact ih

theorem afterLayout_afterLayout (cs : List Char) : afterLayout (afterLayout cs) = afterLayout cs :=
  afterLayout_of_layout_eq_nil (layout_afterLayout cs)

/-- Layout in front of `rest`, which only may lack the line feed of its last comment where
nothing comes behind. -/
def IsGap (gap rest : List Char) : Prop :=
  ∃ body tail, IsLayout body ∧ IsOpenEnd tail ∧ (tail = [] ∨ rest = []) ∧ gap = body ++ tail

theorem IsLayout.tail_of_newline {cs : List Char} (h : IsLayout ('\n' :: cs)) : IsLayout cs := by
  generalize hds : '\n' :: cs = ds at h
  cases h with
  | nil => simp at hds
  | cons hpiece htail =>
    cases hpiece with
    | blank =>
      obtain ⟨_, rfl⟩ := List.cons.inj hds
      exact htail
    | lineComment | blockComment => simp at hds

theorem IsGap.nil (rest : List Char) : IsGap [] rest := ⟨[], [], .nil, .inl rfl, .inl rfl, rfl⟩

theorem IsGap.cons {piece gap rest : List Char} (hpiece : IsLayoutPiece piece)
    (h : IsGap gap rest) : IsGap (piece ++ gap) rest := by
  obtain ⟨body, tail, hbody, htail, hrest, rfl⟩ := h
  exact ⟨piece ++ body, tail, .cons hpiece hbody, htail, hrest, (List.append_assoc ..).symm⟩

theorem IsGap.tail_of_newline {gap rest : List Char} (h : IsGap ('\n' :: gap) rest) :
    IsGap gap rest := by
  obtain ⟨body, tail, hbody, htail, hrest, heq⟩ := h
  cases body with
  | nil =>
    obtain rfl | ⟨text, _, rfl⟩ := htail <;> simp at heq
  | cons c body =>
    obtain ⟨rfl, rfl⟩ := List.cons.inj heq
    exact ⟨body, tail, hbody.tail_of_newline, htail, hrest, rfl⟩

theorem isLayoutPiece_or_lineComment {piece rest : List Char}
    (h : layoutPiece? (piece ++ rest) = some piece) :
    IsLayoutPiece piece ∨
      ∃ text, '\n' ∉ text ∧ piece = '/' :: '/' :: text ∧ ∀ c ∈ rest.head?, c = '\n' := by
  generalize hcs : piece ++ rest = cs at h
  unfold layoutPiece? at h
  split at h
  · simp at h
  · rename_i cs
    obtain rfl := Option.some.inj h
    refine .inr ⟨cs.takeWhile (· ≠ '\n'), ?_, rfl, ?_⟩
    · intro hmem
      simpa using List.all_eq_true.1 List.all_takeWhile _ hmem
    · have hrest : rest = cs.dropWhile (· ≠ '\n') := by
        have hsplit := List.takeWhile_append_dropWhile (p := (· ≠ '\n')) (l := cs)
        have hcs : cs.takeWhile (· ≠ '\n') ++ rest = cs := by simpa using hcs
        exact List.append_cancel_left (hcs.trans hsplit.symm)
      intro c hc
      have hhead := List.head?_dropWhile_not (fun c => decide (c ≠ '\n')) cs
      rw [← hrest, hc] at hhead
      simpa using hhead
  · obtain ⟨w, hw, rfl⟩ := Option.map_eq_some_iff.1 h
    obtain ⟨text, htext, rfl, _⟩ := exists_of_throughBlockEnd? hw
    exact .inl (.blockComment htext)
  · split at h
    · rename_i hblank
      obtain rfl := Option.some.inj h
      exact .inl (.blank hblank)
    · simp at h

theorem isGap_layout (cs : List Char) : IsGap (layout cs) (afterLayout cs) := by
  induction cs using layout.induct with
  | case1 cs h =>
    rw [layout_of_none h]
    exact .nil _
  | case2 cs piece h ih =>
    obtain ⟨rest, rfl⟩ := layoutPiece?_prefix h
    rw [List.drop_left] at ih
    rw [afterLayout_of_some piece rest h, layout_of_some h, List.drop_left]
    obtain hpiece | ⟨text, htext, rfl, hrest⟩ := isLayoutPiece_or_lineComment h
    · exact ih.cons hpiece
    · cases rest with
      | nil =>
        rw [layout_of_none layoutPiece?_nil, afterLayout_nil]
        exact ⟨[], _, .nil, .inr ⟨text, htext, rfl⟩, .inr rfl, by simp⟩
      | cons c rest =>
        obtain rfl := hrest c rfl
        rw [layout_of_some (layoutPiece?_blank rfl rest)] at ih ⊢
        simpa using ih.tail_of_newline.cons (.lineComment htext)

end Recogniser

end GrammarCompletion.Ebnf
