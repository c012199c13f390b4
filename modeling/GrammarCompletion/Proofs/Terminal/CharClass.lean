import Mathlib.Data.Set.Card
import GrammarCompletion.Proofs.FirstPlaces
import GrammarCompletion.Proofs.Terminal.Escape
import GrammarCompletion.Terminal.Decoding

/-! What character classes stand for. The atoms of a body are read as segments from the left, a range
wherever an unescaped hyphen stands between two atoms. The members are the characters of the segments
in turn, each at its first place. A range is refused by the number of its code points, before it is
known which of them are characters and which are members already; so a class is listed exactly if it
is small enough and every range still fits behind the members in front of it. -/

namespace GrammarCompletion.Terminal

section Reading

def ContinuesRange (atoms : List Atom) : Prop :=
  ∃ high rest, atoms = ⟨'-', false⟩ :: high :: rest

/-- How atoms are read from the left. -/
inductive ReadAs : List Atom → List Segment → Prop where
  | nil : ReadAs [] []
  | range {low high : Atom} {rest : List Atom} {found : List Segment} (tail : ReadAs rest found) :
      ReadAs (low :: ⟨'-', false⟩ :: high :: rest) (.range low.char high.char :: found)
  | single {atom : Atom} {rest : List Atom} {found : List Segment} (alone : ¬ ContinuesRange rest)
      (tail : ReadAs rest found) : ReadAs (atom :: rest) (.single atom.char :: found)

theorem readAs_segments (atoms : List Atom) : ReadAs atoms (segments atoms) := by
  fun_induction segments atoms with
  | case1 => exact .nil
  | case2 a => exact .single (by simp [ContinuesRange]) .nil
  | case3 a b => exact .single (by simp [ContinuesRange]) (.single (by simp [ContinuesRange]) .nil)
  | case4 a c rest ih => exact .range ih
  | case5 a b c rest hb ih =>
    refine .single ?_ ih
    rintro ⟨high, tail, heq⟩
    exact hb (List.cons.inj heq).1

theorem segments_range (low high : Atom) (rest : List Atom) :
    segments (low :: ⟨'-', false⟩ :: high :: rest) = .range low.char high.char :: segments rest := by
  rw [segments, if_pos rfl]

theorem segments_single {atom : Atom} {rest : List Atom} (alone : ¬ ContinuesRange rest) :
    segments (atom :: rest) = .single atom.char :: segments rest := by
  match rest with
  | [] => simp [segments]
  | [b] => simp [segments]
  | b :: c :: rest =>
    have hb : b ≠ ⟨'-', false⟩ := fun heq => alone ⟨c, rest, by rw [heq]⟩
    rw [segments, if_neg hb]

theorem ReadAs.eq_segments {atoms : List Atom} {found : List Segment} (h : ReadAs atoms found) :
    segments atoms = found := by
  induction h with
  | nil => simp [segments]
  | range _ ih => rw [segments_range, ih]
  | single alone _ ih => rw [segments_single alone, ih]

/-- The text is a class that is not negated, with the escapes of its body read and the segments it
consists of. -/
inductive IsClass : List Char → List Segment → Prop where
  | intro {pieces : List (List Char)} {body : List Atom} {found : List Segment}
      (plain : pieces.flatten.head? ≠ some '^')
      (written : List.Forall₂ (Atom.WrittenAs none) body pieces) (read : ReadAs body found) :
      IsClass ('[' :: (pieces.flatten ++ [']'])) found

end Reading

section Members

def Segment.Denotes : Segment → Char → Prop
  | .single c, d => d = c
  | .range low high, d => low ≤ d ∧ d ≤ high

def Segment.Ordered : Segment → Prop
  | .single _ => True
  | .range low high => low ≤ high

instance : (segment : Segment) → Decidable segment.Ordered
  | .single _ => .isTrue trivial
  | .range low high => inferInstanceAs (Decidable (low ≤ high))

structure Segment.Lists (segment : Segment) (chars : List Char) : Prop where
  increasing : chars.Pairwise (· < ·)
  mem_iff : ∀ c, c ∈ chars ↔ segment.Denotes c

def Segment.chars : Segment → List Char
  | .single c => [c]
  | .range low high => charsBetween low high

theorem char_le_iff {c d : Char} : c ≤ d ↔ c.toNat ≤ d.toNat := Iff.rfl

theorem char_lt_iff {c d : Char} : c < d ↔ c.toNat < d.toNat := Iff.rfl

theorem mem_charsBetween_iff {low high c : Char} :
    c ∈ charsBetween low high ↔ low ≤ c ∧ c ≤ high := by
  simp only [charsBetween, List.mem_filterMap, Text.scalar?_eq_some_iff, List.mem_range'_1,
    exists_eq_right, char_le_iff]
  omega

theorem charsBetween_increasing (low high : Char) : (charsBetween low high).Pairwise (· < ·) := by
  rw [charsBetween, List.pairwise_filterMap]
  refine (List.pairwise_lt_range').imp fun hlt c hc d hd => ?_
  rw [char_lt_iff, ← Text.scalar?_eq_some_iff.1 hc, ← Text.scalar?_eq_some_iff.1 hd]
  exact hlt

theorem Segment.lists_chars (segment : Segment) : segment.Lists segment.chars := by
  cases segment with
  | single c => exact ⟨List.pairwise_singleton _ _, fun d => List.mem_singleton⟩
  | range low high => exact ⟨charsBetween_increasing low high, fun c => mem_charsBetween_iff⟩

def members (found : List Segment) : List Char := (found.flatMap Segment.chars).eraseDups

theorem members_append_singleton (front : List Segment) (segment : Segment) :
    members (front ++ [segment]) = (front.flatMap Segment.chars ++ segment.chars).eraseDups := by
  simp [members]

theorem foldl_addMember (front chars : List Char) :
    chars.foldl addMember front.eraseDups = (front ++ chars).eraseDups := by
  -- The characters taken so far move to the front, so that what is kept stays a list of first places.
  induction chars generalizing front with
  | nil => simp
  | cons c chars ih =>
    have hadd : addMember front.eraseDups c = (front ++ [c]).eraseDups := by
      rw [addMember, eraseDups_append_singleton]
      simp only [List.mem_eraseDups]
    rw [List.foldl_cons, hadd, ih, List.append_assoc, List.singleton_append]

def denoted (found : List Segment) : Set Char := {c | ∃ segment ∈ found, segment.Denotes c}

theorem mem_members_iff {found : List Segment} {c : Char} : c ∈ members found ↔ c ∈ denoted found := by
  rw [members, List.mem_eraseDups, List.mem_flatMap]
  exact exists_congr fun segment => and_congr_right fun _ => segment.lists_chars.mem_iff c

theorem nodup_members (found : List Segment) : (members found).Nodup := nodup_eraseDups _

theorem ncard_denoted (found : List Segment) : (denoted found).ncard = (members found).length := by
  have hset : denoted found = ((members found).toFinset : Set Char) := by
    ext c
    rw [List.coe_toFinset]
    exact mem_members_iff.symm
  rw [hset, Set.ncard_coe_finset, List.toFinset_card_of_nodup (nodup_members found)]

end Members

section Limits

def width (low high : Char) : Nat := high.toNat - low.toNat + 1

/-- The segment may be added to `count` members: a range must not pass the limit even if all its code
points were new members. -/
def Segment.FitsBehind (count : Nat) : Segment → Prop
  | .single _ => True
  | .range low high => count + width low high ≤ classLimit

instance (count : Nat) : (segment : Segment) → Decidable (segment.FitsBehind count)
  | .single _ => .isTrue trivial
  | .range low high => inferInstanceAs (Decidable (count + width low high ≤ classLimit))

def FitFrom (front : List Segment) : List Segment → Prop
  | [] => True
  | segment :: rest =>
    segment.FitsBehind (members front).length ∧ FitFrom (front ++ [segment]) rest

theorem addSegment_of_fits {front : List Segment} {segment : Segment} (hordered : segment.Ordered)
    (hfits : segment.FitsBehind (members front).length) :
    addSegment (members front) segment = .ok (members (front ++ [segment])) := by
  rw [members_append_singleton]
  cases segment with
  | single c => exact congrArg Except.ok (foldl_addMember _ [c])
  | range low high =>
    have hnot : ¬ high < low := Char.not_lt.2 hordered
    have hwidth : ¬ classLimit < (members front).length + (high.toNat - low.toNat + 1) :=
      not_lt.2 hfits
    rw [addSegment, if_neg hnot, if_neg hwidth]
    exact congrArg Except.ok (foldl_addMember _ _)

theorem addSegment_of_not_fits {front : List Segment} {segment : Segment}
    (hordered : segment.Ordered) (hfits : ¬ segment.FitsBehind (members front).length) :
    addSegment (members front) segment = .error (.notEnumerable .tooManyMembers) := by
  cases segment with
  | single c => exact absurd trivial hfits
  | range low high =>
    have hnot : ¬ high < low := Char.not_lt.2 hordered
    have hwidth : classLimit < (members front).length + (high.toNat - low.toNat + 1) :=
      not_le.1 hfits
    rw [addSegment, if_neg hnot, if_pos hwidth]

theorem ordered_of_addSegment {front next : List Char} {segment : Segment}
    (h : addSegment front segment = .ok next) : segment.Ordered := by
  cases segment with
  | single c => trivial
  | range low high =>
    rw [addSegment] at h
    split at h
    · simp at h
    · rename_i hnot
      exact Char.not_lt.1 hnot

theorem foldlM_addSegment_of_fit {front found : List Segment} (hordered : ∀ s ∈ found, s.Ordered)
    (hfit : FitFrom front found) :
    found.foldlM addSegment (members front) = .ok (members (front ++ found)) := by
  induction found generalizing front with
  | nil =>
    rw [List.append_nil]
    rfl
  | cons segment found ih =>
    obtain ⟨hsegment, hrest⟩ := List.forall_mem_cons.1 hordered
    rw [List.foldlM_cons, addSegment_of_fits hsegment hfit.1]
    have happend := ih hrest hfit.2
    rwa [List.append_assoc, List.singleton_append] at happend

theorem foldlM_addSegment_of_not_fit {front found : List Segment}
    (hordered : ∀ s ∈ found, s.Ordered) (hfit : ¬ FitFrom front found) :
    found.foldlM addSegment (members front) = .error (.notEnumerable .tooManyMembers) := by
  induction found generalizing front with
  | nil => exact absurd trivial hfit
  | cons segment found ih =>
    obtain ⟨hsegment, hrest⟩ := List.forall_mem_cons.1 hordered
    rw [List.foldlM_cons]
    by_cases hfits : segment.FitsBehind (members front).length
    · rw [addSegment_of_fits hsegment hfits]
      exact ih hrest fun h => hfit ⟨hfits, h⟩
    · rw [addSegment_of_not_fits hsegment hfits]
      rfl

theorem ordered_of_foldlM_addSegment {found : List Segment} {front last : List Char}
    (h : found.foldlM addSegment front = .ok last) : ∀ s ∈ found, s.Ordered := by
  induction found generalizing front with
  | nil => simp
  | cons segment found ih =>
    rw [List.foldlM_cons] at h
    cases hstep : addSegment front segment with
    | error obstacle => simp [hstep, bind, Except.bind] at h
    | ok next =>
      rw [hstep] at h
      exact List.forall_mem_cons.2 ⟨ordered_of_addSegment hstep, ih h⟩

def RangesFit (found : List Segment) : Prop :=
  ∀ front low high back, found = front ++ .range low high :: back →
    (denoted front).ncard + width low high ≤ classLimit

theorem fitFrom_iff {front found : List Segment} :
    FitFrom front found ↔ ∀ before low high back, found = before ++ .range low high :: back →
      (members (front ++ before)).length + width low high ≤ classLimit := by
  induction found generalizing front with
  | nil => simp [FitFrom]
  | cons segment found ih =>
    rw [FitFrom, ih]
    constructor
    · rintro ⟨hfits, hrest⟩ before low high back heq
      cases before with
      | nil =>
        obtain ⟨rfl, _⟩ := List.cons.inj heq
        rw [List.append_nil]
        exact hfits
      | cons first before =>
        obtain ⟨rfl, htail⟩ := List.cons.inj heq
        have hlater := hrest before low high back htail
        rwa [List.append_assoc, List.singleton_append] at hlater
    · intro hall
      refine ⟨?_, fun before low high back heq => ?_⟩
      · cases segment with
        | single c => trivial
        | range low high =>
          have hfirst := hall [] low high found rfl
          rwa [List.append_nil] at hfirst
      · have hlater := hall (segment :: before) low high back (by rw [heq, List.cons_append])
        rwa [List.append_assoc, List.singleton_append]

theorem fitFrom_nil_iff {found : List Segment} : FitFrom [] found ↔ RangesFit found := by
  simp only [fitFrom_iff, List.nil_append, RangesFit, ncard_denoted]

end Limits

section Classes

variable {text : String} {found : List Segment} {listed : List Char}

theorem classBody?_eq_some_iff {cs body : List Char} :
    classBody? cs = some body ↔ cs = '[' :: (body ++ [']']) := by
  unfold classBody?
  split
  · rename_i cs
    rw [Option.ite_none_right_eq_some, Option.some.injEq, List.cons.injEq]
    constructor
    · rintro ⟨hlast, rfl⟩
      exact ⟨rfl, (List.dropLast_append_getLast? _ hlast).symm⟩
    · rintro ⟨_, rfl⟩
      simp
  · rename_i hnot
    simp only [reduceCtorEq, false_iff]
    exact hnot _

theorem classMembers_eq_bind {body : List Char} {found : List Atom}
    (hbody : text.toList = '[' :: (body ++ [']'])) (hplain : body.head? ≠ some '^')
    (hatoms : atoms none body = .ok found) :
    classMembers text = ((segments found).foldlM addSegment []).bind fun listed =>
      if listed = [] then .error (.malformed .emptyClass)
      else if classLimit < listed.length then .error (.notEnumerable .tooManyMembers)
      else .ok listed := by
  unfold classMembers
  rw [classBody?_eq_some_iff.2 hbody]
  simp only [hplain, if_false, hatoms]
  rfl

theorem isClass_of_atoms {body : List Char} {chars : List Atom}
    (hbody : text.toList = '[' :: (body ++ [']'])) (hplain : body.head? ≠ some '^')
    (hatoms : atoms none body = .ok chars) (hfound : segments chars = found) :
    IsClass text.toList found := by
  obtain ⟨pieces, rfl, hpieces⟩ := atoms_eq_ok_iff.1 hatoms
  rw [hbody, ← hfound]
  exact .intro hplain hpieces (readAs_segments chars)

theorem exists_isClass_of_classMembers (h : classMembers text = .ok listed) :
    ∃ found, IsClass text.toList found := by
  unfold classMembers at h
  split at h
  · simp at h
  · rename_i body hbody
    split at h
    · simp at h
    · rename_i hplain
      split at h
      · simp at h
      · rename_i found hfound
        exact ⟨_, isClass_of_atoms (classBody?_eq_some_iff.1 hbody) hplain hfound rfl⟩

theorem IsClass.classMembers_eq (h : IsClass text.toList found) :
    classMembers text = (found.foldlM addSegment (members [])).bind fun listed =>
      if listed = [] then .error (.malformed .emptyClass)
      else if classLimit < listed.length then .error (.notEnumerable .tooManyMembers)
      else .ok listed := by
  obtain ⟨cs, hcs⟩ : ∃ cs, text.toList = cs := ⟨_, rfl⟩
  rw [hcs] at h
  cases h with
  | intro plain written read =>
    rw [classMembers_eq_bind hcs plain (atoms_eq_ok_iff.2 ⟨_, rfl, written⟩), read.eq_segments]
    rfl

theorem IsClass.classMembers_of_fit (h : IsClass text.toList found)
    (hordered : ∀ s ∈ found, s.Ordered) (hfit : RangesFit found) :
    classMembers text =
      if members found = [] then .error (.malformed .emptyClass)
      else if classLimit < (members found).length then .error (.notEnumerable .tooManyMembers)
      else .ok (members found) := by
  rw [h.classMembers_eq, foldlM_addSegment_of_fit hordered (fitFrom_nil_iff.2 hfit),
    List.nil_append]
  rfl

theorem IsClass.classMembers_of_not_fit (h : IsClass text.toList found)
    (hordered : ∀ s ∈ found, s.Ordered) (hfit : ¬ RangesFit found) :
    classMembers text = .error (.notEnumerable .tooManyMembers) := by
  rw [h.classMembers_eq, foldlM_addSegment_of_not_fit hordered (mt fitFrom_nil_iff.1 hfit)]
  rfl

theorem IsClass.members_of_classMembers (h : IsClass text.toList found)
    (hlisted : classMembers text = .ok listed) :
    (∀ s ∈ found, s.Ordered) ∧ listed = members found ∧ listed ≠ [] ∧ listed.length ≤ classLimit := by
  have hordered : ∀ s ∈ found, s.Ordered := by
    rw [h.classMembers_eq] at hlisted
    cases hfold : found.foldlM addSegment (members []) with
    | error obstacle => simp [hfold, Except.bind] at hlisted
    | ok last => exact ordered_of_foldlM_addSegment hfold
  by_cases hfit : RangesFit found
  · rw [h.classMembers_of_fit hordered hfit] at hlisted
    split at hlisted
    · simp at hlisted
    · rename_i hne
      split at hlisted
      · simp at hlisted
      · rename_i hlimit
        obtain rfl := Except.ok.inj hlisted
        exact ⟨hordered, rfl, hne, not_lt.1 hlimit⟩
  · simp [h.classMembers_of_not_fit hordered hfit] at hlisted

theorem forall₂_lists_chars (found : List Segment) :
    List.Forall₂ Segment.Lists found (found.map Segment.chars) := by
  rw [List.forall₂_map_right_iff, List.forall₂_same]
  exact fun segment _ => segment.lists_chars

theorem toString_injective : Function.Injective Char.toString := by
  intro c d h
  simpa [Char.toString] using h

/-- A class that is listed is a bracketed body that is not negated, with escapes that can be read and
ranges the right way round. What is listed are the characters of its segments from left to right, each
at its first place: at least one and at most as many as the limit allows. -/
theorem spellings_charClass_exact {text : String} {strings : List String}
    (h : spellings text .charClass = .ok strings) :
    ∃ found lists, IsClass text.toList found ∧ (∀ segment ∈ found, segment.Ordered) ∧
      List.Forall₂ Segment.Lists found lists ∧
      strings = lists.flatten.eraseDups.map Char.toString ∧
      strings.Nodup ∧ 1 ≤ strings.length ∧ strings.length ≤ 32 := by
  cases hlisted : classMembers text with
  | error obstacle => simp [spellings, hlisted, Except.map] at h
  | ok listed =>
    rw [spellings, hlisted] at h
    obtain rfl := Except.ok.inj h
    obtain ⟨found, hclass⟩ := exists_isClass_of_classMembers hlisted
    obtain ⟨hordered, rfl, hne, hlimit⟩ := hclass.members_of_classMembers hlisted
    refine ⟨found, found.map Segment.chars, hclass, hordered, forall₂_lists_chars found, ?_,
      (nodup_members found).map toString_injective, ?_, ?_⟩
    · rw [members, List.flatMap_def]
    · rw [List.length_map]
      exact List.length_pos_iff.2 hne
    · rw [List.length_map]
      exact hlimit

theorem spellings_charClass_hyphens :
    spellings "[+--a\\-]" .charClass = .ok ["+", ",", "-", "a"] ∧
      ∃ found lists, IsClass "[+--a\\-]".toList found ∧ (∀ segment ∈ found, segment.Ordered) ∧
        List.Forall₂ Segment.Lists found lists ∧
        ["+", ",", "-", "a"] = lists.flatten.eraseDups.map Char.toString ∧
        ["+", ",", "-", "a"].Nodup ∧ 1 ≤ ["+", ",", "-", "a"].length ∧
        ["+", ",", "-", "a"].length ≤ 32 := by
  have hatoms : atoms none "+--a\\-".toList = .ok
      [⟨'+', false⟩, ⟨'-', false⟩, ⟨'-', false⟩, ⟨'a', false⟩, ⟨'-', true⟩] := by cbv
  have hsegments :
      segments [⟨'+', false⟩, ⟨'-', false⟩, ⟨'-', false⟩, ⟨'a', false⟩, ⟨'-', true⟩] =
        [.range '+' '-', .single 'a', .single '-'] := by cbv
  have hstrings : spellings "[+--a\\-]" .charClass = .ok ["+", ",", "-", "a"] := by
    rw [spellings, classMembers_eq_bind rfl (by decide) hatoms, hsegments]
    rfl
  exact ⟨hstrings, spellings_charClass_exact hstrings⟩

/-- No range meets characters that stand in front of it, and none reaches over the surrogates. -/
def RangesClear (found : List Segment) : Prop :=
  ∀ front low high back, found = front ++ .range low high :: back →
    (∀ c ∈ denoted front, ¬ (low ≤ c ∧ c ≤ high)) ∧ (high.toNat < 0xD800 ∨ 0xE000 ≤ low.toNat)

theorem length_charsBetween {low high : Char} (hordered : low ≤ high)
    (hclear : high.toNat < 0xD800 ∨ 0xE000 ≤ low.toNat) :
    (charsBetween low high).length = width low high := by
  have hall : ∀ n ∈ List.range' low.toNat (high.toNat + 1 - low.toNat),
      (Text.scalar? n).isSome = true := by
    intro n hn
    rw [List.mem_range'_1] at hn
    have hhigh : high.toNat.isValidChar := high.valid
    have hvalid : n.isValidChar := by
      simp only [Nat.isValidChar] at hhigh ⊢
      omega
    rw [Text.scalar?, if_pos hvalid, Option.isSome_some]
  rw [charsBetween, List.filterMap_length_eq_length.2 hall, List.length_range', width]
  have := char_le_iff.1 hordered
  omega

theorem length_members_append_range {front : List Segment} {low high : Char}
    (hmeets : ∀ c ∈ denoted front, ¬ (low ≤ c ∧ c ≤ high)) :
    (members (front ++ [.range low high])).length =
      (members front).length + (charsBetween low high).length := by
  have hnew : (charsBetween low high).removeAll (front.flatMap Segment.chars) =
      charsBetween low high := by
    rw [List.removeAll, List.filter_eq_self]
    intro c hc
    have hnot : c ∉ members front :=
      fun hmem => hmeets c (mem_members_iff.1 hmem) (mem_charsBetween_iff.1 hc)
    rw [members, List.mem_eraseDups] at hnot
    simpa using hnot
  have hnodup : (charsBetween low high).Nodup :=
    (charsBetween_increasing low high).imp fun hlt => Char.ne_of_lt hlt
  rw [members_append_singleton, List.eraseDups_append, List.length_append, Segment.chars, hnew,
    eraseDups_of_nodup hnodup, members]

theorem ncard_denoted_mono {front found : List Segment} (h : front ⊆ found) :
    (denoted front).ncard ≤ (denoted found).ncard := by
  have hfinite : (denoted found).Finite := by
    refine (members found).finite_toSet.subset fun c hc => ?_
    exact mem_members_iff.2 hc
  refine Set.ncard_le_ncard ?_ hfinite
  rintro c ⟨segment, hsegment, hc⟩
  exact ⟨segment, h hsegment, hc⟩

theorem rangesFit_of_clear (hordered : ∀ s ∈ found, s.Ordered) (hclear : RangesClear found)
    (hlimit : (denoted found).ncard ≤ classLimit) : RangesFit found := by
  intro front low high back heq
  obtain ⟨hmeets, hsurrogates⟩ := hclear front low high back heq
  have hrange : low ≤ high := hordered (.range low high) (by simp [heq])
  have hsub : front ++ [.range low high] ⊆ found := by
    rw [heq]
    intro segment
    simp only [List.mem_append, List.mem_cons, List.not_mem_nil, or_false]
    tauto
  calc (denoted front).ncard + width low high
      = (denoted (front ++ [.range low high])).ncard := by
        rw [ncard_denoted, ncard_denoted, length_members_append_range hmeets,
          length_charsBetween hrange hsurrogates]
    _ ≤ (denoted found).ncard := ncard_denoted_mono hsub
    _ ≤ classLimit := hlimit

theorem members_eq_nil_iff (hordered : ∀ s ∈ found, s.Ordered) : members found = [] ↔ found = [] := by
  constructor
  · intro h
    cases found with
    | nil => rfl
    | cons segment found =>
      have hnone : ∀ c, ¬ segment.Denotes c := fun c hc =>
        List.not_mem_nil (h ▸ mem_members_iff.2 ⟨segment, List.mem_cons_self, hc⟩)
      cases segment with
      | single c => exact absurd rfl (hnone c)
      | range low high =>
        exact absurd ⟨Char.le_refl low, hordered _ List.mem_cons_self⟩ (hnone low)
  · rintro rfl
    rfl

theorem IsClass.classMembers_cases (h : IsClass text.toList found)
    (hordered : ∀ s ∈ found, s.Ordered) :
    (found = [] ∧ classMembers text = .error (.malformed .emptyClass)) ∨
    ((classLimit < (denoted found).ncard ∨ ¬ RangesFit found) ∧
      classMembers text = .error (.notEnumerable .tooManyMembers)) ∨
    (found ≠ [] ∧ (denoted found).ncard ≤ classLimit ∧ RangesFit found ∧
      classMembers text = .ok (members found)) := by
  rw [ncard_denoted]
  by_cases hfit : RangesFit found
  · have hanswer := h.classMembers_of_fit hordered hfit
    by_cases hempty : members found = []
    · rw [if_pos hempty] at hanswer
      exact .inl ⟨(members_eq_nil_iff hordered).1 hempty, hanswer⟩
    · rw [if_neg hempty] at hanswer
      by_cases hlimit : classLimit < (members found).length
      · rw [if_pos hlimit] at hanswer
        exact .inr (.inl ⟨.inl hlimit, hanswer⟩)
      · rw [if_neg hlimit] at hanswer
        exact .inr (.inr ⟨mt (members_eq_nil_iff hordered).2 hempty, not_lt.1 hlimit, hfit, hanswer⟩)
  · exact .inr (.inl ⟨.inr hfit, h.classMembers_of_not_fit hordered hfit⟩)

theorem one_le_ncard_denoted_iff (hordered : ∀ s ∈ found, s.Ordered) :
    1 ≤ (denoted found).ncard ↔ found ≠ [] := by
  rw [ncard_denoted, Nat.one_le_iff_ne_zero, ne_eq, List.length_eq_zero_iff,
    members_eq_nil_iff hordered]

theorem rangesFit_nil : RangesFit [] := by
  simp [RangesFit]

/-- A class whose escapes can be read and whose ranges are the right way round is listed exactly if it
has a member, is within the limit and has no range that might pass the limit on its own account:
behind the members in front of it, by its code points. It is refused for its size exactly if it is
beyond the limit or has such a range. Where ranges meet no earlier character and no surrogate, only
the number of members counts. -/
theorem classMembers_within_limit {text : String} {found : List Segment}
    (h : IsClass text.toList found) (hordered : ∀ segment ∈ found, segment.Ordered) :
    ((∃ listed, classMembers text = .ok listed) ↔
      1 ≤ (denoted found).ncard ∧ (denoted found).ncard ≤ classLimit ∧ RangesFit found) ∧
    ((∃ cause, classMembers text = .error (.notEnumerable cause)) ↔
      classLimit < (denoted found).ncard ∨ ¬ RangesFit found) ∧
    (classMembers text = .error (.malformed .emptyClass) ↔ found = []) ∧
    (RangesClear found →
      ((∃ listed, classMembers text = .ok listed) ↔
        1 ≤ (denoted found).ncard ∧ (denoted found).ncard ≤ classLimit) ∧
      ((∃ cause, classMembers text = .error (.notEnumerable cause)) ↔
        classLimit < (denoted found).ncard)) := by
  have hempty : found = [] → ¬ (classLimit < (denoted found).ncard ∨ ¬ RangesFit found) := by
    rintro rfl
    rw [ncard_denoted]
    exact fun hany => hany.elim (Nat.not_lt_zero _) fun hfit => hfit rangesFit_nil
  have hlisted : (∃ listed, classMembers text = .ok listed) ↔
      1 ≤ (denoted found).ncard ∧ (denoted found).ncard ≤ classLimit ∧ RangesFit found := by
    rw [one_le_ncard_denoted_iff hordered]
    rcases h.classMembers_cases hordered with ⟨hnil, hanswer⟩ | ⟨hany, hanswer⟩ |
      ⟨hne, hlimit, hfit, hanswer⟩
    · simp [hanswer, hnil]
    · simp only [hanswer, reduceCtorEq, exists_false, false_iff, not_and]
      exact fun _ hlimit => hany.resolve_left (not_lt.2 hlimit)
    · exact iff_of_true ⟨_, hanswer⟩ ⟨hne, hlimit, hfit⟩
  have hrefused : (∃ cause, classMembers text = .error (.notEnumerable cause)) ↔
      classLimit < (denoted found).ncard ∨ ¬ RangesFit found := by
    rcases h.classMembers_cases hordered with ⟨hnil, hanswer⟩ | ⟨hany, hanswer⟩ |
      ⟨_, hlimit, hfit, hanswer⟩
    · simpa [hanswer] using hempty hnil
    · exact iff_of_true ⟨_, hanswer⟩ hany
    · simp [hanswer, hfit, hlimit]
  refine ⟨hlisted, hrefused, ?_, fun hclear => ⟨?_, ?_⟩⟩
  · rcases h.classMembers_cases hordered with ⟨hnil, hanswer⟩ | ⟨hany, hanswer⟩ | ⟨hne, _, _, hanswer⟩
    · exact iff_of_true hanswer hnil
    · simpa [hanswer] using fun hnil => hempty hnil hany
    · simp [hanswer, hne]
  · rw [hlisted]
    exact ⟨fun hall => ⟨hall.1, hall.2.1⟩, fun hall =>
      ⟨hall.1, hall.2, rangesFit_of_clear hordered hclear hall.2⟩⟩
  · rw [hrefused]
    refine ⟨fun hany => ?_, .inl⟩
    by_contra hlimit
    exact hany.elim hlimit fun hfit =>
      hfit (rangesFit_of_clear hordered hclear (not_lt.1 hlimit))

/-- The letters from a to z twice over: 26 members, and yet refused as more than 32. -/
theorem letters_twice_refused :
    IsClass "[a-za-z]".toList [.range 'a' 'z', .range 'a' 'z'] ∧
      (∀ segment ∈ [Segment.range 'a' 'z', .range 'a' 'z'], segment.Ordered) ∧
      (denoted [.range 'a' 'z', .range 'a' 'z']).ncard = 26 ∧
      classMembers "[a-za-z]" = .error (.notEnumerable .tooManyMembers) := by
  have hatoms : atoms none "a-za-z".toList = .ok ("a-za-z".toList.map (⟨·, false⟩)) := by cbv
  have hclass : IsClass "[a-za-z]".toList [.range 'a' 'z', .range 'a' 'z'] :=
    isClass_of_atoms (by decide) (by decide) hatoms (by cbv)
  have hordered : ∀ segment ∈ [Segment.range 'a' 'z', .range 'a' 'z'], segment.Ordered := by decide
  have hfit : ¬ RangesFit [.range 'a' 'z', .range 'a' 'z'] := fun h =>
    absurd (fitFrom_nil_iff.2 h).2.1 (by decide)
  refine ⟨hclass, hordered, ?_, hclass.classMembers_of_not_fit hordered hfit⟩
  rw [ncard_denoted]
  decide

theorem letters_again_within_limit :
    IsClass "[a-ea-c]".toList [.range 'a' 'e', .range 'a' 'c'] ∧
      (∀ segment ∈ [Segment.range 'a' 'e', .range 'a' 'c'], segment.Ordered) ∧
      ∃ listed, classMembers "[a-ea-c]" = .ok listed := by
  have hatoms : atoms none "a-ea-c".toList = .ok ("a-ea-c".toList.map (⟨·, false⟩)) := by cbv
  have hclass : IsClass "[a-ea-c]".toList [.range 'a' 'e', .range 'a' 'c'] :=
    isClass_of_atoms (by decide) (by decide) hatoms (by cbv)
  have hordered : ∀ segment ∈ [Segment.range 'a' 'e', .range 'a' 'c'], segment.Ordered := by decide
  have hfit : RangesFit [.range 'a' 'e', .range 'a' 'c'] :=
    fitFrom_nil_iff.1 ⟨by decide, by decide, trivial⟩
  refine ⟨hclass, hordered, (classMembers_within_limit hclass hordered).1.2 ⟨?_, ?_, hfit⟩⟩
  · rw [ncard_denoted]
    decide
  · rw [ncard_denoted]
    decide

end Classes

end GrammarCompletion.Terminal
