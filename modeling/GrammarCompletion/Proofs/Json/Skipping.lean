import GrammarCompletion.Proofs.Json.Numbers

/-! Values that nobody asked for are skipped as a whole, whatever they are made of: the reader stands
behind such a value afterwards. Brackets, quotes and commas inside a string do not end it. -/

namespace GrammarCompletion.Json

theorem length_tokens_le_of_mem {d : Datum} {ds : List Datum} (h : d ∈ ds) (first : Bool) :
    d.tokens.length ≤ (tokensOfElements first ds).length := by
  induction ds generalizing first with
  | nil => simp at h
  | cons e ds ih =>
    simp only [tokensOfElements, List.length_append]
    rcases List.mem_cons.1 h with rfl | hmem
    · omega
    · have hle := ih hmem false
      omega

theorem length_tokens_le_of_member {member : Body × Datum} {members : List (Body × Datum)}
    (h : member ∈ members) (first : Bool) :
    member.2.tokens.length ≤ (tokensOfMembers first members).length := by
  induction members generalizing first with
  | nil => simp at h
  | cons e members ih =>
    simp only [tokensOfMembers, List.length_append, List.length_cons]
    rcases List.mem_cons.1 h with rfl | hmem
    · omega
    · have hle := ih hmem false
      omega

namespace Reader

theorem word_append (w rest : List Char) : word w (w ++ rest) = .ok ((), rest) := by
  induction w with
  | nil => rfl
  | cons c w ih =>
    rw [word, bind_of_eq_ok (get_eq _), List.cons_append]
    simp only [if_pos]
    exact ih

theorem skipString_body (body : Body) (rest : List Char) :
    skipString (body.chars ++ '"' :: rest) = .ok ((), rest) := by
  have hskip : (liftM (Json.skipString (body.chars ++ '"' :: rest)) : Reader (List Char))
      (body.chars ++ '"' :: rest) = .ok (rest, body.chars ++ '"' :: rest) := by
    rw [skipString_of_isBody body.isBody]
    rfl
  rw [skipString, bind_of_eq_ok (get_eq _), bind_of_eq_ok hskip]
  rfl

section Loops

variable {value : Reader Unit} {bound : Nat} {more : List (List Char)} {cs : List Char}

theorem exists_skipElements {d : Datum} {ds : List Datum} (h : ∀ e ∈ d :: ds, Reads value e ())
    (hbound : ds.length < bound)
    (htext : Renders (d.tokens ++ (tokensOfElements false ds ++ more)) cs) :
    ∃ rest, skipElements value bound cs = .ok ((), rest) ∧ Renders more rest := by
  induction ds generalizing d bound cs with
  | nil =>
    obtain ⟨bound, rfl⟩ := Nat.exists_eq_add_one.2 (Nat.zero_lt_of_lt hbound)
    have hd := h d List.mem_cons_self
    obtain ⟨behind, hread, hbehind⟩ := hd (closes_tokensOfElements [] more) htext
    obtain ⟨rest, hpeek, hrest⟩ := exists_peek hbehind (by decide)
    refine ⟨rest, ?_, hrest⟩
    rw [skipElements, bind_of_eq_ok hread, bind_of_eq_ok hpeek]
    rfl
  | cons e ds ih =>
    obtain ⟨bound, rfl⟩ := Nat.exists_eq_add_one.2 (Nat.zero_lt_of_lt hbound)
    have hd := h d List.mem_cons_self
    obtain ⟨behind, hread, hbehind⟩ := hd (closes_tokensOfElements (e :: ds) more) htext
    rw [tokensOfElements_cons_append] at hbehind
    obtain ⟨next, hpeek, hnext⟩ := exists_peek hbehind (by decide)
    have hshorter : ds.length < bound := Nat.lt_of_succ_lt_succ hbound
    have hothers : ∀ a ∈ e :: ds, Reads value a () := fun a ha => h a (List.mem_cons_of_mem d ha)
    obtain ⟨rest, hloop, hrest⟩ := ih hothers hshorter hnext
    refine ⟨rest, ?_, hrest⟩
    rw [skipElements, bind_of_eq_ok hread, bind_of_eq_ok hpeek]
    exact hloop

theorem exists_skipMembers_step (bound : Nat) {key : Body} {d : Datum} (h : Reads value d ())
    (hmore : Closes more)
    (htext : Renders (key.quoted :: [':'] :: (d.tokens ++ more)) cs) :
    ∃ behind, Renders more behind ∧
      (∀ rest, peek behind = .ok (some '}', '}' :: rest) →
        skipMembers value (bound + 1) cs = .ok ((), rest)) ∧
      ∀ rest, peek behind = .ok (some ',', ',' :: rest) →
        skipMembers value (bound + 1) cs = skipMembers value bound rest := by
  obtain ⟨behindKey, hpeek, hbehindKey⟩ := exists_peek_quoted htext
  obtain ⟨front, hcolon, hfront⟩ := exists_colon hbehindKey
  obtain ⟨behind, hread, hbehind⟩ := h hmore hfront
  refine ⟨behind, hbehind, ?_, ?_⟩
  all_goals
    intro rest hmark
    rw [skipMembers, bind_of_eq_ok hpeek]
    change (advance >>= fun _ => skipString >>= fun _ => colon >>= fun _ => value >>= fun _ =>
      peek >>= _) ('"' :: (key.chars ++ '"' :: behindKey)) = _
    rw [bind_of_eq_ok (advance_cons '"' _), bind_of_eq_ok (skipString_body key behindKey),
      bind_of_eq_ok hcolon, bind_of_eq_ok hread, bind_of_eq_ok hmark]
    rfl

theorem exists_skipMembers {key : Body} {d : Datum} {members : List (Body × Datum)}
    (hd : Reads value d ()) (h : ∀ m ∈ members, Reads value m.2 ())
    (hbound : members.length < bound)
    (htext : Renders (key.quoted :: [':'] :: (d.tokens ++ (tokensOfMembers false members ++ more)))
      cs) :
    ∃ rest, skipMembers value bound cs = .ok ((), rest) ∧ Renders more rest := by
  induction members generalizing key d bound cs with
  | nil =>
    obtain ⟨bound, rfl⟩ := Nat.exists_eq_add_one.2 (Nat.zero_lt_of_lt hbound)
    obtain ⟨behind, hbehind, hclose, _⟩ :=
      exists_skipMembers_step bound hd (closes_tokensOfMembers [] more) htext
    obtain ⟨rest, hpeek, hrest⟩ := exists_peek hbehind (by decide)
    exact ⟨rest, hclose rest hpeek, hrest⟩
  | cons member members ih =>
    obtain ⟨bound, rfl⟩ := Nat.exists_eq_add_one.2 (Nat.zero_lt_of_lt hbound)
    obtain ⟨behind, hbehind, _, hcomma⟩ :=
      exists_skipMembers_step bound hd (closes_tokensOfMembers (member :: members) more) htext
    rw [tokensOfMembers_cons_append] at hbehind
    obtain ⟨next, hpeek, hnext⟩ := exists_peek hbehind (by decide)
    have hshorter : members.length < bound := Nat.lt_of_succ_lt_succ hbound
    have hothers : ∀ m ∈ members, Reads value m.2 () :=
      fun m hm => h m (List.mem_cons_of_mem member hm)
    rw [hcomma next hpeek]
    exact ih (h member List.mem_cons_self) hothers hshorter hnext

end Loops

section Values

variable {depth : Nat}

theorem skipUpTo_of_isDigit {c : Char} {cs rest : List Char}
    (h : peek cs = .ok (some c, rest)) (hdigit : c.isDigit = true) :
    skipUpTo (depth + 1) cs = skipNumber rest := by
  rw [skipUpTo, bind_of_eq_ok h]
  refine run_congr ?_ rfl
  split
  case h_9 d hd =>
    obtain rfl := Option.some.inj hd
    exact if_pos hdigit
  all_goals
    rename_i hc
    simp only [Option.some.injEq, reduceCtorEq] at hc
  all_goals
    rw [hc] at hdigit
    simp at hdigit

theorem reads_skipUpTo_number (n : Numeral) : Reads (skipUpTo (depth + 1)) (.number n) () := by
  intro more cs hmore htext
  obtain ⟨chars, hnumber⟩ := n
  cases hnumber with
  | @intro sign whole fraction exponent hsign hwhole hfraction hexponent =>
    have hskip : ∀ {rest}, Renders more rest →
        skipNumber (whole ++ (fraction ++ exponent) ++ rest) = .ok ((), rest) := by
      intro rest hrest
      rw [List.append_assoc, List.append_assoc]
      exact skipNumber_append hwhole hfraction hexponent (endsNumber_of_closes hmore hrest)
    rcases hsign with rfl | rfl
    · obtain ⟨c, w, rfl⟩ := List.exists_cons_of_ne_nil hwhole.ne_nil
      have hdigit := hwhole.forall_isDigit c List.mem_cons_self
      obtain ⟨rest, hpeek, hrest⟩ := exists_peek htext (isBlank_eq_false_of_isDigit hdigit)
      refine ⟨rest, ?_, hrest⟩
      rw [skipUpTo_of_isDigit hpeek hdigit]
      exact hskip hrest
    · obtain ⟨rest, hpeek, hrest⟩ := exists_peek htext (by decide)
      refine ⟨rest, ?_, hrest⟩
      rw [skipUpTo, bind_of_eq_ok hpeek]
      exact hskip hrest

theorem reads_skipUpTo_array {ds : List Datum} (h : ∀ d ∈ ds, Reads (skipUpTo depth) d ()) :
    Reads (skipUpTo (depth + 1)) (.array ds) () := by
  intro more cs _ htext
  obtain ⟨inner, hpeek, hinner⟩ : ∃ inner, peek cs = .ok (some '[', '[' :: inner) ∧
      Renders (tokensOfElements true ds ++ more) inner := exists_peek htext (by decide)
  rw [skipUpTo, bind_of_eq_ok hpeek]
  change ∃ rest, (advance >>= fun _ => peek >>= _) ('[' :: inner) = _ ∧ _
  rw [bind_of_eq_ok (advance_cons '[' inner)]
  cases ds with
  | nil =>
    obtain ⟨rest, hclose, hrest⟩ := exists_peek hinner (by decide)
    refine ⟨rest, ?_, hrest⟩
    rw [bind_of_eq_ok hclose]
    rfl
  | cons d ds =>
    rw [tokensOfElements_cons_append] at hinner
    obtain ⟨c, front, hc, hhead, hfront⟩ := exists_peek_datum d hinner
    have hbound : ds.length < front.length + 1 := by
      have hle := hfront.length_le
      have hds := length_le_tokensOfElements false ds
      simp only [List.length_append] at hle
      omega
    obtain ⟨rest, hloop, hrest⟩ := exists_skipElements h hbound hfront
    refine ⟨rest, ?_, hrest⟩
    rw [bind_of_eq_ok hhead]
    simp only
    exact hloop

theorem reads_skipUpTo_object {members : List (Body × Datum)}
    (h : ∀ m ∈ members, Reads (skipUpTo depth) m.2 ()) :
    Reads (skipUpTo (depth + 1)) (.object members) () := by
  intro more cs _ htext
  obtain ⟨inner, hpeek, hinner⟩ : ∃ inner, peek cs = .ok (some '{', '{' :: inner) ∧
      Renders (tokensOfMembers true members ++ more) inner := exists_peek htext (by decide)
  rw [skipUpTo, bind_of_eq_ok hpeek]
  change ∃ rest, (advance >>= fun _ => peek >>= _) ('{' :: inner) = _ ∧ _
  rw [bind_of_eq_ok (advance_cons '{' inner)]
  cases members with
  | nil =>
    obtain ⟨rest, hclose, hrest⟩ := exists_peek hinner (by decide)
    refine ⟨rest, ?_, hrest⟩
    rw [bind_of_eq_ok hclose]
    rfl
  | cons member members =>
    rw [tokensOfMembers_cons_append] at hinner
    obtain ⟨behind, hquote, hbehind⟩ := exists_peek_quoted hinner
    have hfront := hbehind.token (Body.quoted_ne_nil member.1)
    have hbound : members.length < (member.1.quoted ++ behind).length + 1 := by
      have hle := hfront.length_le
      have hmembers := length_le_tokensOfMembers false members
      simp only [List.length_cons, List.length_append] at hle ⊢
      omega
    have hothers : ∀ m ∈ members, Reads (skipUpTo depth) m.2 () :=
      fun m hm => h m (List.mem_cons_of_mem member hm)
    obtain ⟨rest, hloop, hrest⟩ :=
      exists_skipMembers (h member List.mem_cons_self) hothers hbound hfront
    have hsplit : member.1.quoted ++ behind = '"' :: (member.1.chars ++ '"' :: behind) := by
      simp [Body.quoted]
    rw [hsplit] at hloop
    refine ⟨rest, ?_, hrest⟩
    rw [bind_of_eq_ok hquote]
    exact hloop

theorem reads_skipUpTo (depth : Nat) (d : Datum) (h : d.tokens.length ≤ depth) :
    Reads (skipUpTo depth) d () := by
  induction depth generalizing d with
  | zero =>
    obtain ⟨c, w, tokens, htokens, _⟩ := d.exists_head
    simp [htokens] at h
  | succ depth ih =>
    cases d with
    | null =>
      intro more cs _ htext
      obtain ⟨rest, hpeek, hrest⟩ := exists_peek htext (by decide)
      refine ⟨rest, ?_, hrest⟩
      rw [skipUpTo, bind_of_eq_ok hpeek]
      exact word_append ['u', 'l', 'l'] rest
    | boolean b =>
      intro more cs _ htext
      cases b
      all_goals
        obtain ⟨rest, hpeek, hrest⟩ := exists_peek htext (by decide)
        refine ⟨rest, ?_, hrest⟩
        rw [skipUpTo, bind_of_eq_ok hpeek]
        exact word_append _ rest
    | number n => exact reads_skipUpTo_number n
    | string body =>
      intro more cs _ htext
      obtain ⟨rest, hpeek, hrest⟩ := exists_peek_quoted htext
      refine ⟨rest, ?_, hrest⟩
      rw [skipUpTo, bind_of_eq_ok hpeek]
      exact skipString_body body rest
    | array elements =>
      refine reads_skipUpTo_array fun d hd => ih d ?_
      have hle := length_tokens_le_of_mem hd true
      rw [Datum.tokens, List.length_cons] at h
      omega
    | object members =>
      refine reads_skipUpTo_object fun m hm => ih m.2 ?_
      have hle := length_tokens_le_of_member hm true
      rw [Datum.tokens, List.length_cons] at h
      omega

theorem reads_skipValue (d : Datum) : Reads skipValue d () := by
  intro more cs hmore htext
  have hle := htext.length_le
  rw [List.length_append] at hle
  rw [skipValue, bind_of_eq_ok (get_eq cs)]
  exact reads_skipUpTo (cs.length + 1) d (by omega) hmore htext

end Values

end Reader

end GrammarCompletion.Json
