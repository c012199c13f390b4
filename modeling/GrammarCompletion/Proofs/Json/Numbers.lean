import GrammarCompletion.Json.Skip
import GrammarCompletion.Proofs.Json.Reading

/-! Numbers in JSON text. A number ends where the text goes on with none of the characters that could
prolong it, and behind a value that is always so. Natural numbers that fit a word are read as they
are, and numbers of every spelling are skipped. -/

namespace GrammarCompletion.Json

/-- The text does not go on with a digit, a point or the letter of an exponent. -/
def EndsNumber (rest : List Char) : Prop :=
  ∀ c ∈ rest.head?, c.isDigit = false ∧ c ≠ '.' ∧ c ≠ 'e' ∧ c ≠ 'E'

theorem endsNumber_of_closes {more : List (List Char)} {rest : List Char} (hmore : Closes more)
    (h : Renders more rest) : EndsNumber rest := by
  have hblank : ∀ c, Reader.isBlank c = true → c.isDigit = false ∧ c ≠ '.' ∧ c ≠ 'e' ∧ c ≠ 'E' := by
    intro c hc
    simp only [Reader.isBlank, Bool.or_eq_true, beq_iff_eq] at hc
    rcases hc with ((rfl | rfl) | rfl) | rfl <;> decide
  intro c hc
  cases h with
  | nil hblanks => exact hblank c (hblanks c (List.mem_of_mem_head? hc))
  | @cons blanks token _ _ hblanks _ _ =>
    cases blanks with
    | cons b blanks =>
      obtain rfl : b = c := Option.some.inj hc
      exact hblank b (hblanks b List.mem_cons_self)
    | nil =>
      rcases hmore token rfl with rfl | rfl | rfl
      all_goals
        obtain rfl := Option.some.inj hc
        decide

namespace Reader

variable {α : Type}

theorem pure_eq (a : α) (cs : List Char) : (pure a : Reader α) cs = .ok (a, cs) := rfl

theorem run_congr {reader other : Reader α} {cs : List Char} {result : Except Fault (α × List Char)}
    (h : reader = other) (hrun : other cs = result) : reader cs = result := by
  rw [h, hrun]

section Digits

theorem digits_append {ds rest : List Char} (hds : ∀ d ∈ ds, d.isDigit = true)
    (hrest : ∀ c ∈ rest.head?, c.isDigit = false) : digits (ds ++ rest) = .ok (ds, rest) := by
  have htake : rest.takeWhile Char.isDigit = [] ∧ rest.dropWhile Char.isDigit = rest := by
    cases rest with
    | nil => exact ⟨rfl, rfl⟩
    | cons c rest =>
      have hc : ¬ c.isDigit = true := Bool.eq_false_iff.1 (hrest c rfl)
      exact ⟨List.takeWhile_cons_of_neg hc, List.dropWhile_cons_of_neg hc⟩
  change Except.ok ((ds ++ rest).takeWhile Char.isDigit, (ds ++ rest).dropWhile Char.isDigit) = _
  rw [List.takeWhile_append_of_pos hds, List.dropWhile_append_of_pos hds, htake.1, htake.2,
    List.append_nil]

theorem someDigits_append {ds rest : List Char} (hne : ds ≠ [])
    (hds : ∀ d ∈ ds, d.isDigit = true) (hrest : ∀ c ∈ rest.head?, c.isDigit = false) :
    someDigits (ds ++ rest) = .ok (ds, rest) := by
  rw [someDigits, bind_of_eq_ok (digits_append hds hrest)]
  cases ds with
  | nil => exact absurd rfl hne
  | cons d ds => rfl

theorem skipDigits_append {ds rest : List Char} (h : IsDigits ds)
    (hrest : ∀ c ∈ rest.head?, c.isDigit = false) : skipDigits (ds ++ rest) = .ok ((), rest) := by
  rw [skipDigits, bind_of_eq_ok (digits_append h.2 hrest), if_neg h.1]
  rfl

end Digits

section Words

theorem le_ofDigitChars (n : Nat) (ds : List Char) : n ≤ Nat.ofDigitChars 10 ds n := by
  induction ds generalizing n with
  | nil => exact Nat.le_of_eq Nat.ofDigitChars_nil.symm
  | cons d ds ih =>
    rw [Nat.ofDigitChars_cons]
    have hle := ih (10 * n + (d.toNat - '0'.toNat))
    omega

theorem absorb_of_le {significand : Nat} {ds : List Char}
    (h : Nat.ofDigitChars 10 ds significand ≤ Number.maxWord) :
    Number.absorb significand ds = (Nat.ofDigitChars 10 ds significand, []) := by
  induction ds generalizing significand with
  | nil => rw [Number.absorb, Nat.ofDigitChars_nil]
  | cons d ds ih =>
    rw [Nat.ofDigitChars_cons] at h ⊢
    have hnext := Nat.le_trans (le_ofDigitChars _ ds) h
    rw [Number.absorb]
    simp only [if_pos hnext]
    exact ih h

theorem number_toDigits {n : Nat} (h : n ≤ Number.maxWord) {rest : List Char}
    (hrest : EndsNumber rest) :
    number false (Nat.toDigits 10 n ++ rest) = .ok (.natural n, rest) := by
  have hwhole := isWhole_toDigits n
  have habsorb : Number.absorb 0 (Nat.toDigits 10 n) = (n, []) := by
    have hvalue : Nat.ofDigitChars 10 (Nat.toDigits 10 n) 0 = n := Nat.ofDigitChars_ten_toDigits
    rw [absorb_of_le (by rw [hvalue]; exact h), hvalue]
  rw [number, bind_of_eq_ok (someDigits_append hwhole.ne_nil hwhole.forall_isDigit
    fun c hc => (hrest c hc).1), if_neg hwhole.no_leading_zero]
  simp only [habsorb]
  rw [bind_of_eq_ok (get_eq rest)]
  refine run_congr ?_ (pure_eq (Number.natural n) rest)
  split
  · rename_i hpoint
    exact absurd rfl (hrest _ hpoint).2.1
  · rename_i hletter
    exact absurd rfl (hrest _ hletter).2.2.1
  · rename_i hletter
    exact absurd rfl (hrest _ hletter).2.2.2
  · rfl

theorem reads_offset {n : Nat} (h : n ≤ Number.maxWord) :
    Reads offset (.number (.ofNat n)) n := by
  intro more cs hmore htext
  obtain ⟨c, w, hchars, hdigit⟩ : ∃ c w, Nat.toDigits 10 n = c :: w ∧ c.isDigit = true := by
    have hwhole := isWhole_toDigits n
    cases hdigits : Nat.toDigits 10 n with
    | nil => exact absurd hdigits hwhole.ne_nil
    | cons c w => exact ⟨c, w, rfl, hwhole.forall_isDigit c (by simp [hdigits])⟩
  have htokens : (Datum.number (.ofNat n)).tokens = [c :: w] := by
    rw [Datum.tokens, ← hchars]
    rfl
  rw [htokens] at htext
  obtain ⟨rest, hpeek, hrest⟩ := exists_peek htext (isBlank_eq_false_of_isDigit hdigit)
  refine ⟨rest, ?_, hrest⟩
  rw [← List.cons_append, ← hchars] at hpeek
  have hnumber := number_toDigits h (endsNumber_of_closes hmore hrest)
  have hsign : c ≠ '-' := by
    rintro rfl
    simp at hdigit
  rw [offset, bind_of_eq_ok hpeek]
  simp only [if_pos hdigit]
  rw [bind_of_eq_ok hnumber]
  rfl

end Words

section Skipping

theorem head_exponent {exponent rest : List Char} (h : IsExponent exponent)
    (hrest : EndsNumber rest) : ∀ c ∈ (exponent ++ rest).head?, c.isDigit = false ∧ c ≠ '.' := by
  intro c hc
  cases h with
  | none => exact ⟨(hrest c hc).1, (hrest c hc).2.1⟩
  | some hletter =>
    obtain rfl := Option.some.inj hc
    rcases hletter with rfl | rfl <;> decide

theorem head_fraction {fraction rest : List Char} (h : IsFraction fraction)
    (hrest : ∀ c ∈ rest.head?, c.isDigit = false) :
    ∀ c ∈ (fraction ++ rest).head?, c.isDigit = false := by
  intro c hc
  cases h with
  | none => exact hrest c hc
  | some =>
    obtain rfl := Option.some.inj hc
    decide

theorem skipSigned_append {sign ds rest : List Char}
    (hsign : sign = [] ∨ sign = ['+'] ∨ sign = ['-']) (hds : IsDigits ds)
    (hdigits : skipDigits (ds ++ rest) = .ok ((), rest)) :
    (do
      match (← get).head? with
      | some '+' | some '-' => advance
      | _ => pure ()
      skipDigits : Reader Unit) (sign ++ (ds ++ rest)) = .ok ((), rest) := by
  rw [bind_of_eq_ok (get_eq _)]
  rcases hsign with rfl | rfl | rfl
  · obtain ⟨hne, hall⟩ := hds
    cases ds with
    | nil => exact absurd rfl hne
    | cons d ds =>
      have hd := hall d List.mem_cons_self
      refine run_congr ?_ hdigits
      split
      · rename_i hplus
        obtain rfl := Option.some.inj hplus
        simp at hd
      · rename_i hminus
        obtain rfl := Option.some.inj hminus
        simp at hd
      · rfl
  · exact hdigits
  · exact hdigits

theorem skipExponent_append {exponent rest : List Char} (h : IsExponent exponent)
    (hrest : EndsNumber rest) : skipExponent (exponent ++ rest) = .ok ((), rest) := by
  cases h with
  | none =>
    rw [List.nil_append, skipExponent, bind_of_eq_ok (get_eq rest)]
    refine run_congr ?_ (pure_eq () rest)
    split
    · rename_i hletter
      exact absurd rfl (hrest _ hletter).2.2.1
    · rename_i hletter
      exact absurd rfl (hrest _ hletter).2.2.2
    · rfl
  | @some letter sign ds hletter hsign hds =>
    have hdigits := skipDigits_append hds fun c hc => (hrest c hc).1
    have hsigned := skipSigned_append hsign hds hdigits
    rw [List.cons_append, List.append_assoc, skipExponent, bind_of_eq_ok (get_eq _)]
    rcases hletter with rfl | rfl
    · exact hsigned
    · exact hsigned

theorem skipNumber_append {whole fraction exponent rest : List Char} (hwhole : IsWhole whole)
    (hfraction : IsFraction fraction) (hexponent : IsExponent exponent) (hrest : EndsNumber rest) :
    skipNumber (whole ++ (fraction ++ (exponent ++ rest))) = .ok ((), rest) := by
  have hbehind := head_exponent hexponent hrest
  have htail := skipExponent_append hexponent hrest
  have hdigits := digits_append hwhole.forall_isDigit
    (head_fraction hfraction fun c hc => (hbehind c hc).1)
  have hzero := hwhole.no_leading_zero
  rw [skipNumber, bind_of_eq_ok hdigits]
  cases whole with
  | nil => exact absurd rfl hwhole.ne_nil
  | cons d ds =>
    simp only [if_neg hzero]
    rw [bind_of_eq_ok (get_eq _)]
    cases hfraction with
    | none =>
      refine run_congr ?_ htail
      split
      · rename_i hpoint
        exact absurd rfl (hbehind _ hpoint).2
      · rfl
    | some h =>
      rw [List.cons_append]
      change (advance >>= fun _ => skipDigits >>= fun _ => skipExponent) _ = _
      rw [bind_of_eq_ok (advance_cons _ _),
        bind_of_eq_ok (skipDigits_append h fun c hc => (hbehind c hc).1), htail]

end Skipping

end Reader

end GrammarCompletion.Json
