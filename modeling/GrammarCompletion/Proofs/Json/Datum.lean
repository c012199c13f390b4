import GrammarCompletion.Json.Reader
import GrammarCompletion.Proofs.Json.Spelling

/-! JSON values of every kind and their texts. A value is known by the spelling of its numbers and
strings, so that a text of it is its tokens in turn with any blanks around them. -/

namespace GrammarCompletion.Json

open Reader (isBlank)

inductive IsWhole : List Char → Prop where
  | zero : IsWhole ['0']
  | digits {d : Char} {ds : List Char} (digit : d.isDigit = true) (nonzero : d ≠ '0')
      (rest : ∀ e ∈ ds, e.isDigit = true) : IsWhole (d :: ds)

def IsDigits (ds : List Char) : Prop := ds ≠ [] ∧ ∀ d ∈ ds, d.isDigit = true

inductive IsFraction : List Char → Prop where
  | none : IsFraction []
  | some {ds : List Char} (h : IsDigits ds) : IsFraction ('.' :: ds)

inductive IsExponent : List Char → Prop where
  | none : IsExponent []
  | some {letter : Char} {sign ds : List Char} (hletter : letter = 'e' ∨ letter = 'E')
      (hsign : sign = [] ∨ sign = ['+'] ∨ sign = ['-']) (h : IsDigits ds) :
      IsExponent (letter :: (sign ++ ds))

inductive IsNumber : List Char → Prop where
  | intro {sign whole fraction exponent : List Char} (hsign : sign = [] ∨ sign = ['-'])
      (hwhole : IsWhole whole) (hfraction : IsFraction fraction) (hexponent : IsExponent exponent) :
      IsNumber (sign ++ (whole ++ (fraction ++ exponent)))

structure Numeral where
  chars : List Char
  isNumber : IsNumber chars

structure Body where
  chars : List Char
  isBody : IsBody chars

namespace Body

def Spells (body : Body) (s : String) : Prop := Json.Spells s.toList body.chars

def ofString (s : String) : Body :=
  ⟨s.toList.flatMap Value.writeChar, (spells_writeChars s.toList).isBody⟩

theorem spells_ofString (s : String) : (ofString s).Spells s := spells_writeChars s.toList

def quoted (body : Body) : List Char := '"' :: (body.chars ++ ['"'])

theorem quoted_ne_nil (body : Body) : body.quoted ≠ [] := List.cons_ne_nil _ _

end Body

inductive Datum where
  | null
  | boolean (b : Bool)
  | number (n : Numeral)
  | string (body : Body)
  | array (elements : List Datum)
  | object (members : List (Body × Datum))

section Tokens

def separator (first : Bool) : List (List Char) := if first then [] else [[',']]

mutual

def Datum.tokens : Datum → List (List Char)
  | .null => [['n', 'u', 'l', 'l']]
  | .boolean true => [['t', 'r', 'u', 'e']]
  | .boolean false => [['f', 'a', 'l', 's', 'e']]
  | .number n => [n.chars]
  | .string body => [body.quoted]
  | .array elements => ['['] :: tokensOfElements true elements
  | .object members => ['{'] :: tokensOfMembers true members

def tokensOfElements (first : Bool) : List Datum → List (List Char)
  | [] => [[']']]
  | d :: ds => separator first ++ (d.tokens ++ tokensOfElements false ds)

def tokensOfMembers (first : Bool) : List (Body × Datum) → List (List Char)
  | [] => [['}']]
  | (key, d) :: members =>
    separator first ++ (key.quoted :: [':'] :: (d.tokens ++ tokensOfMembers false members))

end

theorem tokensOfElements_cons_append (first : Bool) (d : Datum) (ds : List Datum)
    (more : List (List Char)) :
    tokensOfElements first (d :: ds) ++ more =
      separator first ++ (d.tokens ++ (tokensOfElements false ds ++ more)) := by
  rw [tokensOfElements, List.append_assoc, List.append_assoc]

theorem tokensOfMembers_cons_append (first : Bool) (m : Body × Datum)
    (members : List (Body × Datum)) (more : List (List Char)) :
    tokensOfMembers first (m :: members) ++ more =
      separator first ++
        (m.1.quoted :: [':'] :: (m.2.tokens ++ (tokensOfMembers false members ++ more))) := by
  rw [tokensOfMembers, List.append_assoc, List.cons_append, List.cons_append, List.append_assoc]

inductive Renders : List (List Char) → List Char → Prop where
  | nil {blanks : List Char} (hblanks : ∀ c ∈ blanks, isBlank c = true) : Renders [] blanks
  | cons {blanks token cs : List Char} {tokens : List (List Char)}
      (hblanks : ∀ c ∈ blanks, isBlank c = true) (hne : token ≠ []) (rest : Renders tokens cs) :
      Renders (token :: tokens) (blanks ++ (token ++ cs))

/-- The text is JSON for the value, laid out in any way. -/
def Datum.IsText (d : Datum) (text : String) : Prop := Renders d.tokens text.toList

theorem Renders.blanks_append {tokens : List (List Char)} {blanks cs : List Char}
    (h : Renders tokens cs) (hblanks : ∀ c ∈ blanks, isBlank c = true) :
    Renders tokens (blanks ++ cs) := by
  cases h with
  | nil hcs => exact .nil (List.forall_mem_append.2 ⟨hblanks, hcs⟩)
  | cons hfront hne rest =>
    rw [← List.append_assoc]
    exact .cons (List.forall_mem_append.2 ⟨hblanks, hfront⟩) hne rest

theorem Renders.append_blanks {tokens : List (List Char)} {blanks cs : List Char}
    (h : Renders tokens cs) (hblanks : ∀ c ∈ blanks, isBlank c = true) :
    Renders tokens (cs ++ blanks) := by
  induction h with
  | nil hcs => exact .nil (List.forall_mem_append.2 ⟨hcs, hblanks⟩)
  | cons hfront hne _ ih =>
    rw [List.append_assoc, List.append_assoc]
    exact .cons hfront hne ih

theorem Renders.token {tokens : List (List Char)} {token cs : List Char} (h : Renders tokens cs)
    (hne : token ≠ []) : Renders (token :: tokens) (token ++ cs) := by
  have hnone : ∀ c ∈ ([] : List Char), isBlank c = true := by simp
  exact .cons hnone hne h

theorem Renders.length_le {tokens : List (List Char)} {cs : List Char} (h : Renders tokens cs) :
    tokens.length ≤ cs.length := by
  induction h with
  | nil => exact Nat.zero_le _
  | cons _ hne _ ih =>
    have hpos := List.length_pos_iff.2 hne
    simp only [List.length_cons, List.length_append]
    omega

end Tokens

section Whole

theorem isWhole_toDigits_pos {n : Nat} (h : 0 < n) :
    ∃ d ds, Nat.toDigits 10 n = d :: ds ∧ d.isDigit = true ∧ d ≠ '0' ∧
      ∀ e ∈ ds, e.isDigit = true := by
  induction n using Nat.strongRecOn with
  | ind n ih =>
    have hdigit : (n % 10).digitChar.isDigit = true := by
      rw [Nat.isDigit_digitChar]
      exact decide_eq_true (Nat.mod_lt n (by decide))
    by_cases hsmall : n < 10
    · refine ⟨n.digitChar, [], Nat.toDigits_of_lt_base hsmall, ?_, ?_, by simp⟩
      · rw [Nat.mod_eq_of_lt hsmall] at hdigit
        exact hdigit
      · rw [ne_eq, Nat.digitChar_eq_zero]
        omega
    · obtain ⟨d, ds, hds, hd, hnonzero, hrest⟩ := ih (n / 10) (by omega) (by omega)
      refine ⟨d, ds ++ [(n % 10).digitChar], ?_, hd, hnonzero, ?_⟩
      · rw [Nat.toDigits_of_base_le (by decide) (by omega), hds, List.cons_append]
      · rw [List.forall_mem_append, List.forall_mem_singleton]
        exact ⟨hrest, hdigit⟩

theorem isWhole_toDigits (n : Nat) : IsWhole (Nat.toDigits 10 n) := by
  rcases Nat.eq_zero_or_pos n with rfl | hpos
  · rw [Nat.toDigits_zero]
    exact .zero
  · obtain ⟨d, ds, hds, hd, hnonzero, hrest⟩ := isWhole_toDigits_pos hpos
    rw [hds]
    exact .digits hd hnonzero hrest

theorem isNumber_toDigits (n : Nat) : IsNumber (Nat.toDigits 10 n) := by
  have hsign : ([] : List Char) = [] ∨ [] = ['-'] := .inl rfl
  have h := IsNumber.intro hsign (isWhole_toDigits n) .none .none
  rwa [List.nil_append, List.append_nil, List.append_nil] at h

def Numeral.ofNat (n : Nat) : Numeral := ⟨Nat.toDigits 10 n, isNumber_toDigits n⟩

theorem IsWhole.forall_isDigit {ds : List Char} (h : IsWhole ds) : ∀ d ∈ ds, d.isDigit = true := by
  cases h with
  | zero => exact List.forall_mem_singleton.2 rfl
  | digits digit _ rest => exact List.forall_mem_cons.2 ⟨digit, rest⟩

theorem IsWhole.ne_nil {ds : List Char} (h : IsWhole ds) : ds ≠ [] := by
  cases h <;> exact List.cons_ne_nil _ _

theorem IsWhole.no_leading_zero {ds : List Char} (h : IsWhole ds) :
    ¬ (ds.head? = some '0' ∧ 1 < ds.length) := by
  cases h with
  | zero => decide
  | digits _ nonzero _ =>
    rintro ⟨hzero, _⟩
    exact nonzero (Option.some.inj hzero)

theorem IsNumber.exists_head {cs : List Char} (h : IsNumber cs) :
    ∃ c w, cs = c :: w ∧ (c = '-' ∨ c.isDigit = true) := by
  cases h with
  | intro hsign hwhole _ _ =>
    rcases hsign with rfl | rfl
    · cases hwhole with
      | zero => exact ⟨_, _, rfl, .inr (by decide)⟩
      | digits digit _ _ => exact ⟨_, _, rfl, .inr digit⟩
    · exact ⟨_, _, rfl, .inl rfl⟩

end Whole

end GrammarCompletion.Json
