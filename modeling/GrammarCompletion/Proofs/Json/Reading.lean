import Mathlib.Data.List.Forall2
import GrammarCompletion.Proofs.Json.Datum

/-! What the readers make of JSON text. A reader reads a value if it gives the same answer on every
text of it and leaves what stands behind. Strings, whole numbers, lists and objects are read in this
sense, where lists and objects take over what is known of the reader of their entries. -/

namespace GrammarCompletion.Json

/-- What may stand behind a value: nothing more, or the mark that separates or closes. -/
def Closes (tokens : List (List Char)) : Prop :=
  ∀ token ∈ tokens.head?, token = [','] ∨ token = [']'] ∨ token = ['}']

theorem closes_nil : Closes [] := by simp [Closes]

theorem closes_tokensOfElements (ds : List Datum) (more : List (List Char)) :
    Closes (tokensOfElements false ds ++ more) := by
  cases ds <;> simp [Closes, tokensOfElements, separator]

theorem closes_tokensOfMembers (members : List (Body × Datum)) (more : List (List Char)) :
    Closes (tokensOfMembers false members ++ more) := by
  cases members <;> simp [Closes, tokensOfMembers, separator]

theorem isBlank_eq_false_of_isDigit {c : Char} (h : c.isDigit = true) :
    Reader.isBlank c = false := by
  rw [Bool.eq_false_iff]
  intro hblank
  simp only [Reader.isBlank, Bool.or_eq_true, beq_iff_eq] at hblank
  rcases hblank with ((rfl | rfl) | rfl) | rfl <;> simp at h

theorem Datum.exists_head (d : Datum) :
    ∃ c w rest, d.tokens = (c :: w) :: rest ∧ Reader.isBlank c = false ∧ c ≠ ']' := by
  cases d with
  | null => exact ⟨_, _, _, rfl, by decide, by decide⟩
  | boolean b => cases b <;> exact ⟨_, _, _, rfl, by decide, by decide⟩
  | number n =>
    obtain ⟨c, w, hchars, hc⟩ := n.isNumber.exists_head
    rw [tokens, hchars]
    rcases hc with rfl | hdigit
    · exact ⟨_, _, _, rfl, by decide, by decide⟩
    · refine ⟨_, _, _, rfl, isBlank_eq_false_of_isDigit hdigit, ?_⟩
      rintro rfl
      simp at hdigit
  | string body => exact ⟨_, _, _, rfl, by decide, by decide⟩
  | array elements => exact ⟨_, _, _, rfl, by decide, by decide⟩
  | object members => exact ⟨_, _, _, rfl, by decide, by decide⟩

theorem length_le_tokensOfElements (first : Bool) (ds : List Datum) :
    ds.length ≤ (tokensOfElements first ds).length := by
  induction ds generalizing first with
  | nil => exact Nat.zero_le _
  | cons d ds ih =>
    obtain ⟨c, w, rest, htokens, _⟩ := d.exists_head
    have hrest := ih false
    rw [tokensOfElements, htokens]
    simp only [List.length_append, List.length_cons]
    omega

theorem length_le_tokensOfMembers (first : Bool) (members : List (Body × Datum)) :
    members.length ≤ (tokensOfMembers first members).length := by
  induction members generalizing first with
  | nil => exact Nat.zero_le _
  | cons member members ih =>
    have hrest := ih false
    rw [tokensOfMembers]
    simp only [List.length_append, List.length_cons]
    omega

namespace Reader

variable {α β : Type}

theorem bind_of_eq_ok {reader : Reader α} {f : α → Reader β} {cs rest : List Char} {a : α}
    (h : reader cs = .ok (a, rest)) : (reader >>= f) cs = f a rest := by
  change (reader cs >>= fun p => f p.1 p.2) = f a rest
  rw [h]
  rfl

theorem peek_eq (cs : List Char) :
    peek cs = .ok ((cs.dropWhile isBlank).head?, cs.dropWhile isBlank) := rfl

theorem advance_cons (c : Char) (cs : List Char) : advance (c :: cs) = .ok ((), cs) := rfl

theorem get_eq (cs : List Char) : (get : Reader (List Char)) cs = .ok (cs, cs) := rfl

theorem exists_peek {c : Char} {w cs : List Char} {tokens : List (List Char)}
    (h : Renders ((c :: w) :: tokens) cs) (hc : isBlank c = false) :
    ∃ rest, peek cs = .ok (some c, c :: (w ++ rest)) ∧ Renders tokens rest := by
  cases h with
  | @cons blanks _ rest _ hblanks _ hrest =>
    refine ⟨rest, ?_, hrest⟩
    have hhead : ¬ isBlank c = true := Bool.eq_false_iff.1 hc
    rw [peek_eq, List.dropWhile_append_of_pos hblanks, List.cons_append,
      List.dropWhile_cons_of_neg hhead]
    rfl

theorem exists_peek_datum (d : Datum) {more : List (List Char)} {cs : List Char}
    (h : Renders (d.tokens ++ more) cs) :
    ∃ c rest, c ≠ ']' ∧ peek cs = .ok (some c, rest) ∧ Renders (d.tokens ++ more) rest := by
  obtain ⟨c, w, tokens, htokens, hblank, hc⟩ := d.exists_head
  rw [htokens] at h ⊢
  obtain ⟨rest, hpeek, hrest⟩ := exists_peek h hblank
  exact ⟨c, _, hc, hpeek, hrest.token (List.cons_ne_nil c w)⟩

/-- On every text of the value the reader gives `a` and leaves what stands behind the value. -/
def Reads (reader : Reader α) (d : Datum) (a : α) : Prop :=
  ∀ ⦃more : List (List Char)⦄ ⦃cs : List Char⦄, Closes more → Renders (d.tokens ++ more) cs →
    ∃ rest, reader cs = .ok (a, rest) ∧ Renders more rest

theorem all_of_reads {reader : Reader α} {d : Datum} {a : α} {text : String}
    (h : Reads reader d a) (htext : d.IsText text) : all reader text = .ok a := by
  rw [Datum.IsText, ← List.append_nil d.tokens] at htext
  obtain ⟨rest, hread, hrest⟩ := h closes_nil htext
  unfold all
  rw [hread]
  cases hrest with
  | nil hblanks =>
    have hall : rest.all isBlank = true := List.all_eq_true.2 hblanks
    simp only [bind, Except.bind, if_pos hall]
    rfl

section Strings

theorem quoted_of_spells {body : Body} {s : String} (h : body.Spells s) (rest : List Char) :
    quoted (body.chars ++ '"' :: rest) = .ok (s, rest) := by
  have hscan : scan stringBody (body.chars ++ '"' :: rest) = .ok (s.toList, rest) :=
    stringBody_of_spells h rest
  rw [quoted, bind_of_eq_ok hscan, String.ofList_toList]
  rfl

theorem exists_peek_quoted {body : Body} {cs : List Char} {tokens : List (List Char)}
    (h : Renders (body.quoted :: tokens) cs) :
    ∃ rest, peek cs = .ok (some '"', '"' :: (body.chars ++ '"' :: rest)) ∧ Renders tokens rest := by
  obtain ⟨rest, hpeek, hrest⟩ := exists_peek h (by decide)
  rw [List.append_assoc] at hpeek
  exact ⟨rest, hpeek, hrest⟩

theorem reads_string {body : Body} {s : String} (h : body.Spells s) :
    Reads string (.string body) s := by
  intro more cs _ htext
  obtain ⟨rest, hpeek, hrest⟩ := exists_peek_quoted htext
  refine ⟨rest, ?_, hrest⟩
  rw [string, bind_of_eq_ok hpeek]
  exact quoted_of_spells h rest

end Strings

section Lists

theorem nextElement_of_peek {c : Char} {cs rest : List Char} (h : peek cs = .ok (some c, rest))
    (hc : c ≠ ']') : nextElement true cs = .ok (true, rest) := by
  rw [nextElement, bind_of_eq_ok h]
  simp only
  rfl

theorem nextElement_of_comma {c : Char} {cs behind rest : List Char}
    (hcomma : peek cs = .ok (some ',', ',' :: behind)) (h : peek behind = .ok (some c, rest))
    (hc : c ≠ ']') : nextElement false cs = .ok (true, rest) := by
  rw [nextElement, bind_of_eq_ok hcomma]
  change (advance >>= fun _ => peek >>= _) (',' :: behind) = _
  rw [bind_of_eq_ok (advance_cons ',' behind), bind_of_eq_ok h]
  simp only
  rfl

theorem exists_nextElement {first : Bool} {d : Datum} {more : List (List Char)} {cs : List Char}
    (h : Renders (separator first ++ (d.tokens ++ more)) cs) :
    ∃ rest, nextElement first cs = .ok (true, rest) ∧ Renders (d.tokens ++ more) rest := by
  cases first with
  | true =>
    obtain ⟨c, rest, hc, hpeek, hrest⟩ := exists_peek_datum d h
    exact ⟨rest, nextElement_of_peek hpeek hc, hrest⟩
  | false =>
    obtain ⟨behind, hcomma, hbehind⟩ := exists_peek h (by decide)
    obtain ⟨c, rest, hc, hpeek, hrest⟩ := exists_peek_datum d hbehind
    exact ⟨rest, nextElement_of_comma hcomma hpeek hc, hrest⟩

theorem exists_nextElement_close (first : Bool) {more : List (List Char)} {cs : List Char}
    (h : Renders ([']'] :: more) cs) :
    ∃ rest, nextElement first cs = .ok (false, ']' :: rest) ∧ Renders more rest := by
  obtain ⟨rest, hpeek, hrest⟩ := exists_peek h (by decide)
  refine ⟨rest, ?_, hrest⟩
  rw [nextElement, bind_of_eq_ok hpeek]
  rfl

theorem exists_elements {element : Reader α} {ds : List Datum} {as : List α}
    (h : List.Forall₂ (fun d a => Reads element d a) ds as) {bound : Nat} {first : Bool}
    {more : List (List Char)} {cs : List Char} (hbound : ds.length < bound)
    (htext : Renders (tokensOfElements first ds ++ more) cs) :
    ∃ rest, elements element bound first cs = .ok (as, rest) ∧ Renders more rest := by
  induction h generalizing bound first cs with
  | nil =>
    obtain ⟨bound, rfl⟩ := Nat.exists_eq_add_one.2 (Nat.zero_lt_of_lt hbound)
    obtain ⟨rest, hnext, hrest⟩ := exists_nextElement_close first htext
    have helement : element? first element cs = .ok (none, ']' :: rest) := by
      rw [element?, bind_of_eq_ok hnext]
      rfl
    refine ⟨rest, ?_, hrest⟩
    rw [elements, bind_of_eq_ok helement]
    rfl
  | @cons d a ds as hd _ ih =>
    obtain ⟨bound, rfl⟩ := Nat.exists_eq_add_one.2 (Nat.zero_lt_of_lt hbound)
    rw [tokensOfElements_cons_append] at htext
    obtain ⟨front, hnext, hfront⟩ := exists_nextElement htext
    obtain ⟨behind, hread, hbehind⟩ := hd (closes_tokensOfElements ds more) hfront
    have hshorter : ds.length < bound := Nat.lt_of_succ_lt_succ hbound
    obtain ⟨rest, hloop, hrest⟩ := ih hshorter hbehind
    have helement : element? first element cs = .ok (some a, behind) := by
      rw [element?, bind_of_eq_ok hnext, if_pos rfl, bind_of_eq_ok hread]
      rfl
    refine ⟨rest, ?_, hrest⟩
    rw [elements, bind_of_eq_ok helement]
    change (elements element bound false >>= _) behind = _
    rw [bind_of_eq_ok hloop]
    rfl

theorem length_lt_of_renders_elements {first : Bool} {ds : List Datum}
    {more : List (List Char)} {cs : List Char}
    (h : Renders (tokensOfElements first ds ++ more) cs) : ds.length < cs.length + 1 := by
  have hds := length_le_tokensOfElements first ds
  have hle := h.length_le
  rw [List.length_append] at hle
  omega

theorem reads_sequence {element : Reader α} {ds : List Datum} {as : List α}
    (h : List.Forall₂ (fun d a => Reads element d a) ds as) :
    Reads (sequence element) (.array ds) as := by
  intro more cs _ htext
  obtain ⟨inner, hpeek, hinner⟩ := exists_peek htext (by decide)
  obtain ⟨rest, hloop, hrest⟩ := exists_elements h (length_lt_of_renders_elements hinner) hinner
  refine ⟨rest, ?_, hrest⟩
  rw [sequence, bind_of_eq_ok hpeek]
  exact hloop

end Lists

section Objects

theorem exists_nextKey {first : Bool} {key : Body} {name : String} (hkey : key.Spells name)
    {more : List (List Char)} {cs : List Char}
    (h : Renders (separator first ++ (key.quoted :: more)) cs) :
    ∃ rest, nextKey first cs = .ok (some name, rest) ∧ Renders more rest := by
  cases first with
  | true =>
    obtain ⟨rest, hpeek, hrest⟩ := exists_peek_quoted h
    refine ⟨rest, ?_, hrest⟩
    rw [nextKey, bind_of_eq_ok hpeek]
    change (advance >>= fun _ => quoted >>= _) ('"' :: (key.chars ++ '"' :: rest)) = _
    rw [bind_of_eq_ok (advance_cons '"' _), bind_of_eq_ok (quoted_of_spells hkey rest)]
    rfl
  | false =>
    obtain ⟨behind, hcomma, hbehind⟩ := exists_peek h (by decide)
    obtain ⟨rest, hpeek, hrest⟩ := exists_peek_quoted hbehind
    refine ⟨rest, ?_, hrest⟩
    rw [nextKey, bind_of_eq_ok hcomma]
    change (advance >>= fun _ => peek >>= _) (',' :: behind) = _
    rw [bind_of_eq_ok (advance_cons ',' behind), bind_of_eq_ok hpeek]
    change (advance >>= fun _ => quoted >>= _) ('"' :: (key.chars ++ '"' :: rest)) = _
    rw [bind_of_eq_ok (advance_cons '"' _), bind_of_eq_ok (quoted_of_spells hkey rest)]
    rfl

theorem exists_nextKey_close (first : Bool) {more : List (List Char)} {cs : List Char}
    (h : Renders (['}'] :: more) cs) :
    ∃ rest, nextKey first cs = .ok (none, '}' :: rest) ∧ Renders more rest := by
  obtain ⟨rest, hpeek, hrest⟩ := exists_peek h (by decide)
  refine ⟨rest, ?_, hrest⟩
  rw [nextKey, bind_of_eq_ok hpeek]
  rfl

theorem exists_colon {more : List (List Char)} {cs : List Char}
    (h : Renders ([':'] :: more) cs) : ∃ rest, colon cs = .ok ((), rest) ∧ Renders more rest := by
  obtain ⟨rest, hpeek, hrest⟩ := exists_peek h (by decide)
  refine ⟨rest, ?_, hrest⟩
  rw [colon, bind_of_eq_ok hpeek]
  rfl

theorem exists_members {value : Reader α} {members : List (Body × Datum)}
    {pairs : List (String × α)}
    (h : List.Forall₂ (fun m p => m.1.Spells p.1 ∧ Reads value m.2 p.2) members pairs)
    {bound : Nat} {first : Bool} {more : List (List Char)} {cs : List Char}
    (hbound : members.length < bound)
    (htext : Renders (tokensOfMembers first members ++ more) cs) :
    ∃ rest, Reader.members value bound first cs = .ok (pairs, rest) ∧ Renders more rest := by
  induction h generalizing bound first cs with
  | nil =>
    obtain ⟨bound, rfl⟩ := Nat.exists_eq_add_one.2 (Nat.zero_lt_of_lt hbound)
    obtain ⟨rest, hnext, hrest⟩ := exists_nextKey_close first htext
    refine ⟨rest, ?_, hrest⟩
    rw [Reader.members, bind_of_eq_ok hnext]
    rfl
  | @cons m p members pairs hm _ ih =>
    obtain ⟨bound, rfl⟩ := Nat.exists_eq_add_one.2 (Nat.zero_lt_of_lt hbound)
    obtain ⟨key, d⟩ := m
    rw [tokensOfMembers_cons_append] at htext
    obtain ⟨behindKey, hnext, hbehindKey⟩ := exists_nextKey hm.1 htext
    obtain ⟨front, hcolon, hfront⟩ := exists_colon hbehindKey
    obtain ⟨behind, hread, hbehind⟩ := hm.2 (closes_tokensOfMembers members more) hfront
    have hshorter : members.length < bound := Nat.lt_of_succ_lt_succ hbound
    obtain ⟨rest, hloop, hrest⟩ := ih hshorter hbehind
    refine ⟨rest, ?_, hrest⟩
    rw [Reader.members, bind_of_eq_ok hnext]
    change (colon >>= fun _ => value >>= _) behindKey = _
    rw [bind_of_eq_ok hcolon, bind_of_eq_ok hread, bind_of_eq_ok hloop]
    rfl

theorem length_lt_of_renders_members {first : Bool} {members : List (Body × Datum)}
    {more : List (List Char)} {cs : List Char}
    (h : Renders (tokensOfMembers first members ++ more) cs) : members.length < cs.length + 1 := by
  have hmembers := length_le_tokensOfMembers first members
  have hle := h.length_le
  rw [List.length_append] at hle
  omega

theorem reads_map {value : Reader α} {members : List (Body × Datum)} {pairs : List (String × α)}
    (h : List.Forall₂ (fun m p => m.1.Spells p.1 ∧ Reads value m.2 p.2) members pairs) :
    Reads (map value) (.object members) pairs := by
  intro more cs _ htext
  obtain ⟨inner, hpeek, hinner⟩ := exists_peek htext (by decide)
  obtain ⟨rest, hloop, hrest⟩ := exists_members h (length_lt_of_renders_members hinner) hinner
  refine ⟨rest, ?_, hrest⟩
  rw [map, bind_of_eq_ok hpeek]
  exact hloop

end Objects

end Reader

end GrammarCompletion.Json
