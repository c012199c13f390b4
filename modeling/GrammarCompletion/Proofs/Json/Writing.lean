import GrammarCompletion.Proofs.Json.Datum

/-! What is written for a JSON value is a text of it, whether line by line or without any blanks. -/

namespace GrammarCompletion.Json

open Reader (isBlank)

section Compact

theorem renders_flatten {tokens : List (List Char)} (h : ∀ token ∈ tokens, token ≠ []) :
    Renders tokens tokens.flatten := by
  induction tokens with
  | nil => exact .nil (by simp)
  | cons token tokens ih =>
    obtain ⟨htoken, hrest⟩ := List.forall_mem_cons.1 h
    exact (ih hrest).token htoken

theorem ne_nil_of_mem_separator {first : Bool} : ∀ token ∈ separator first, token ≠ [] := by
  cases first <;> simp [separator]

mutual

theorem ne_nil_of_mem_tokens : (d : Datum) → ∀ token ∈ d.tokens, token ≠ []
  | .null => by simp [Datum.tokens]
  | .boolean true => by simp [Datum.tokens]
  | .boolean false => by simp [Datum.tokens]
  | .number n => by
    obtain ⟨c, w, hchars, _⟩ := n.isNumber.exists_head
    simp [Datum.tokens, hchars]
  | .string body => by simp [Datum.tokens, body.quoted_ne_nil]
  | .array elements => by
    rw [Datum.tokens, List.forall_mem_cons]
    exact ⟨List.cons_ne_nil _ _, ne_nil_of_mem_tokensOfElements true elements⟩
  | .object members => by
    rw [Datum.tokens, List.forall_mem_cons]
    exact ⟨List.cons_ne_nil _ _, ne_nil_of_mem_tokensOfMembers true members⟩

theorem ne_nil_of_mem_tokensOfElements (first : Bool) :
    (ds : List Datum) → ∀ token ∈ tokensOfElements first ds, token ≠ []
  | [] => by simp [tokensOfElements]
  | d :: ds => by
    rw [tokensOfElements, List.forall_mem_append, List.forall_mem_append]
    exact ⟨ne_nil_of_mem_separator, ne_nil_of_mem_tokens d, ne_nil_of_mem_tokensOfElements false ds⟩

theorem ne_nil_of_mem_tokensOfMembers (first : Bool) :
    (members : List (Body × Datum)) → ∀ token ∈ tokensOfMembers first members, token ≠ []
  | [] => by simp [tokensOfMembers]
  | (key, d) :: members => by
    rw [tokensOfMembers, List.forall_mem_append, List.forall_mem_cons, List.forall_mem_cons,
      List.forall_mem_append]
    exact ⟨ne_nil_of_mem_separator, key.quoted_ne_nil, List.cons_ne_nil _ _,
      ne_nil_of_mem_tokens d, ne_nil_of_mem_tokensOfMembers false members⟩

end

def Datum.compact (d : Datum) : String := String.ofList d.tokens.flatten

theorem Datum.isText_compact (d : Datum) : d.IsText d.compact := by
  rw [IsText, compact, String.toList_ofList]
  exact renders_flatten (ne_nil_of_mem_tokens d)

end Compact

section Lines

theorem isBlank_of_mem_newline {level : Nat} : ∀ c ∈ Value.newline level, isBlank c = true := by
  intro c hc
  rcases List.mem_cons.1 hc with rfl | hc
  · rfl
  · rw [List.eq_of_mem_replicate hc]
    rfl

theorem Renders.newline {tokens : List (List Char)} {cs : List Char} (level : Nat)
    (h : Renders tokens cs) : Renders tokens (Value.newline level ++ cs) :=
  h.blanks_append isBlank_of_mem_newline

theorem Renders.mark {tokens : List (List Char)} {cs : List Char} (c : Char)
    (h : Renders tokens cs) : Renders ([c] :: tokens) (c :: cs) :=
  h.token (List.cons_ne_nil c [])

theorem Renders.key {tokens : List (List Char)} {cs : List Char} (key : String)
    (h : Renders tokens cs) :
    Renders ((Body.ofString key).quoted :: [':'] :: tokens)
      (Value.writeString key ++ ':' :: ' ' :: cs) := by
  have hone : ∀ c ∈ [' '], isBlank c = true := List.forall_mem_singleton.2 rfl
  exact (Renders.mark ':' (h.blanks_append hone)).token (Body.quoted_ne_nil _)

end Lines

namespace Value

mutual

def datum : Value → Datum
  | number n => .number (.ofNat n)
  | string s => .string (.ofString s)
  | array elements => .array (datumsOf elements)
  | object members => .object (membersOf members)

def datumsOf : List Value → List Datum
  | [] => []
  | v :: vs => v.datum :: datumsOf vs

def membersOf : List (String × Value) → List (Body × Datum)
  | [] => []
  | (key, v) :: members => (.ofString key, v.datum) :: membersOf members

end

theorem datumsOf_eq_map (vs : List Value) : datumsOf vs = vs.map datum := by
  induction vs with
  | nil => rfl
  | cons v vs ih => rw [datumsOf, ih, List.map_cons]

theorem membersOf_eq_map (members : List (String × Value)) :
    membersOf members = members.map fun m => (.ofString m.1, m.2.datum) := by
  induction members with
  | nil => rfl
  | cons member members ih => rw [membersOf, ih, List.map_cons]

mutual

theorem renders_writeAt (level : Nat) : (v : Value) → {tokens : List (List Char)} →
    {cs : List Char} → Renders tokens cs → Renders (v.datum.tokens ++ tokens) (v.writeAt level ++ cs)
  | number n, _, _, h => h.token Nat.toDigits_ne_nil
  | string s, _, _, h => h.token (Body.quoted_ne_nil _)
  | array [], _, _, h => .mark '[' (.mark ']' h)
  | array (v :: vs), tokens, cs, h => by
    have hrest := renders_writeElements (level + 1) vs (.newline level (.mark ']' h))
    have htext := Renders.mark '[' (.newline (level + 1) (renders_writeAt (level + 1) v hrest))
    simpa [datum, datumsOf, Datum.tokens, tokensOfElements, separator, writeAt] using htext
  | object [], _, _, h => .mark '{' (.mark '}' h)
  | object ((key, v) :: members), tokens, cs, h => by
    have hrest := renders_writeMembers (level + 1) members (.newline level (.mark '}' h))
    have hmember := Renders.key key (renders_writeAt (level + 1) v hrest)
    have htext := Renders.mark '{' (.newline (level + 1) hmember)
    simpa [datum, membersOf, Datum.tokens, tokensOfMembers, separator, writeAt] using htext

theorem renders_writeElements (level : Nat) : (vs : List Value) → {tokens : List (List Char)} →
    {cs : List Char} → Renders ([']'] :: tokens) cs →
    Renders (tokensOfElements false (datumsOf vs) ++ tokens) (writeElements level vs ++ cs)
  | [], _, _, h => h
  | v :: vs, _, _, h => by
    have hrest := renders_writeAt level v (renders_writeElements level vs h)
    have htext := Renders.mark ',' (.newline level hrest)
    simpa [datumsOf, tokensOfElements, separator, writeElements] using htext

theorem renders_writeMembers (level : Nat) : (members : List (String × Value)) →
    {tokens : List (List Char)} → {cs : List Char} → Renders (['}'] :: tokens) cs →
    Renders (tokensOfMembers false (membersOf members) ++ tokens) (writeMembers level members ++ cs)
  | [], _, _, h => h
  | (key, v) :: members, _, _, h => by
    have hrest := Renders.key key (renders_writeAt level v (renders_writeMembers level members h))
    have htext := Renders.mark ',' (.newline level hrest)
    simpa [membersOf, tokensOfMembers, separator, writeMembers] using htext

end

theorem isText_write (v : Value) : v.datum.IsText v.write := by
  have hend : Renders [] [] := .nil (by simp)
  have h := renders_writeAt 0 v hend
  rw [List.append_nil, List.append_nil] at h
  rwa [Datum.IsText, write, String.toList_ofList]

end Value

end GrammarCompletion.Json
