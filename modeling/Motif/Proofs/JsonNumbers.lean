import Mathlib.Data.List.Induction
import Motif.Proofs.JsonTexts

/-!
# Reading numbers in JSON

A number has no end of its own: it goes on as long as its parts do. What may follow a value goes on with none of them
(`Ends.head_ne`), so a number that is well written is read to its end (`scanNumeral_numberText`). If it is written as
the digits of a machine word, it is read as this word (`readWord_render`): no word is too large for floating point.
-/

namespace Motif.Json

variable {c : Char} {gap rest text digits : List Char} {atEnd : Fault} {n : Nat}

/-! ### The parts of a number -/

theorem scanDigits_append (h : ∀ c ∈ digits, Decimal.IsDigit c) (hrest : ∀ c ∈ rest.head?, ¬ Decimal.IsDigit c) :
    scanDigits (digits ++ rest) = (digits.map Decimal.digitValue, rest) := by
  induction digits with
  | nil =>
    cases rest with
    | nil => rfl
    | cons c rest =>
      rw [List.nil_append, scanDigits, Decimal.digit?_of_not_isDigit (hrest c rfl)]
      rfl
  | cons c digits ih =>
    obtain ⟨hc, hdigits⟩ := List.forall_mem_cons.mp h
    rw [List.cons_append, scanDigits, Decimal.digit?_of_isDigit hc, ih hdigits]
    rfl

theorem scanSomeDigits_append (h : SomeDigits digits) (hrest : ∀ c ∈ rest.head?, ¬ Decimal.IsDigit c) :
    scanSomeDigits atEnd (digits ++ rest) = .ok (digits.map Decimal.digitValue, rest) := by
  obtain ⟨hne, hdigits⟩ := h
  obtain ⟨c, tail, rfl⟩ := List.exists_cons_of_ne_nil hne
  rw [scanSomeDigits, scanDigits_append hdigits hrest]
  rfl

theorem scanWhole_append (h : WholeText digits) (hrest : ∀ c ∈ rest.head?, ¬ Decimal.IsDigit c) :
    scanWhole atEnd (digits ++ rest) = .ok (digits.map Decimal.digitValue, rest) := by
  obtain ⟨hdigits, hzero⟩ := h
  rw [scanWhole, scanSomeDigits_append hdigits hrest]
  dsimp only [bind, Except.bind]
  split
  · rename_i heq
    have heq := congrArg Prod.fst heq
    obtain ⟨c, tail, rfl⟩ := List.exists_cons_of_ne_nil hdigits.1
    obtain ⟨hvalue, htail⟩ := List.cons.inj heq
    have hc := Decimal.eq_zero_of_digitValue (hdigits.2 c List.mem_cons_self) hvalue
    rw [hzero tail (hc ▸ rfl)] at htail
    contradiction
  · rfl

theorem isBlank_of_isDigit (h : Decimal.IsDigit c) : isBlank c = false := by
  by_contra hblank
  simp only [Bool.not_eq_false, isBlank, Bool.or_eq_true, decide_eq_true_eq] at hblank
  rcases hblank with ((rfl | rfl) | rfl) | rfl <;> contradiction

theorem not_isDigit_sign : ¬ Decimal.IsDigit '-' ∧ ¬ Decimal.IsDigit '+' := by decide

theorem scanMinus_append {sign : List Char} (h : sign = [] ∨ sign = ['-']) (hdigits : SomeDigits digits) :
    scanMinus (sign ++ (digits ++ rest)) = (decide (sign = ['-']), digits ++ rest) := by
  rcases h with rfl | rfl
  · obtain ⟨hne, hdigit⟩ := hdigits
    obtain ⟨c, tail, rfl⟩ := List.exists_cons_of_ne_nil hne
    rw [List.nil_append, List.cons_append, scanMinus.eq_def]
    split
    · rename_i heq
      exact absurd ((List.cons.inj heq).1 ▸ hdigit c List.mem_cons_self) not_isDigit_sign.1
    · rfl
  · rfl

theorem scanSign_append {sign : List Char} (h : sign = [] ∨ sign = ['+'] ∨ sign = ['-'])
    (hdigits : SomeDigits digits) : (scanSign (sign ++ (digits ++ rest))).2 = digits ++ rest := by
  rcases h with rfl | rfl | rfl
  · obtain ⟨hne, hdigit⟩ := hdigits
    obtain ⟨c, tail, rfl⟩ := List.exists_cons_of_ne_nil hne
    rw [List.nil_append, List.cons_append, scanSign.eq_def]
    split
    · rename_i heq
      exact absurd ((List.cons.inj heq).1 ▸ hdigit c List.mem_cons_self) not_isDigit_sign.1
    · rename_i heq
      exact absurd ((List.cons.inj heq).1 ▸ hdigit c List.mem_cons_self) not_isDigit_sign.2
    · rfl
  · rfl
  · rfl

/-! ### What a number is followed by -/

theorem Ends.head_ne (h : Ends rest) :
    ∀ c ∈ rest.head?, ¬ Decimal.IsDigit c ∧ c ≠ '.' ∧ ¬ (c = 'e' ∨ c = 'E') := by
  intro c hc
  have hcases := h c hc
  simp only [isBlank, Bool.or_eq_true, decide_eq_true_eq] at hcases
  rcases hcases with (((rfl | rfl) | rfl) | rfl) | rfl | rfl | rfl <;> decide

theorem ExponentText.head_ne (h : ExponentText text) (hrest : Ends rest) :
    ∀ c ∈ (text ++ rest).head?, ¬ Decimal.IsDigit c ∧ c ≠ '.' := by
  intro c hc
  rcases h with rfl | ⟨mark, sign, digits, rfl, hmark, _⟩
  · exact ⟨(hrest.head_ne c hc).1, (hrest.head_ne c hc).2.1⟩
  · obtain rfl := Option.some.inj hc
    rcases hmark with rfl | rfl <;> decide

theorem FractionText.head_ne (h : FractionText text) (hrest : ∀ c ∈ rest.head?, ¬ Decimal.IsDigit c ∧ c ≠ '.') :
    ∀ c ∈ (text ++ rest).head?, ¬ Decimal.IsDigit c := by
  intro c hc
  rcases h with rfl | ⟨digits, rfl, _⟩
  · exact (hrest c hc).1
  · obtain rfl := Option.some.inj hc
    decide

theorem scanFraction_nil (hrest : ∀ c ∈ rest.head?, c ≠ '.') : scanFraction atEnd rest = .ok ([], rest) := by
  rw [scanFraction.eq_def]
  split
  · exact absurd rfl (hrest '.' rfl)
  · rfl

theorem scanFraction_append (atEnd : Fault) (h : FractionText text)
    (hrest : ∀ c ∈ rest.head?, ¬ Decimal.IsDigit c ∧ c ≠ '.') :
    ∃ fraction, scanFraction atEnd (text ++ rest) = .ok (fraction, rest) := by
  rcases h with rfl | ⟨digits, rfl, hdigits⟩
  · exact ⟨[], scanFraction_nil fun c hc => (hrest c hc).2⟩
  · exact ⟨_, scanSomeDigits_append hdigits fun c hc => (hrest c hc).1⟩

theorem scanExponent_nil (hrest : Ends rest) : scanExponent atEnd rest = .ok (none, rest) := by
  cases rest with
  | nil => rfl
  | cons c rest => exact if_neg (hrest.head_ne c rfl).2.2

theorem scanExponent_append (atEnd : Fault) (h : ExponentText text) (hrest : Ends rest) :
    ∃ exponent, scanExponent atEnd (text ++ rest) = .ok (exponent, rest) := by
  rcases h with rfl | ⟨mark, sign, digits, rfl, hmark, hsign, hdigits⟩
  · exact ⟨none, scanExponent_nil hrest⟩
  · rw [List.cons_append, List.append_assoc, scanExponent, if_pos hmark, scanSign_append hsign hdigits,
      scanSomeDigits_append hdigits fun c hc => (hrest.head_ne c hc).1]
    exact ⟨_, rfl⟩

theorem scanNumeral_append (atEnd : Fault) {sign whole after after' : List Char} {fraction : List Nat}
    {exponent : Option (Bool × List Nat)} (hsign : sign = [] ∨ sign = ['-']) (hwhole : WholeText whole)
    (hafter : ∀ c ∈ after.head?, ¬ Decimal.IsDigit c) (hfraction : scanFraction atEnd after = .ok (fraction, after'))
    (hexponent : scanExponent atEnd after' = .ok (exponent, rest)) :
    scanNumeral atEnd (sign ++ (whole ++ after)) =
      .ok (⟨decide (sign = ['-']), whole.map Decimal.digitValue, fraction, exponent⟩, rest) := by
  rw [scanNumeral, scanMinus_append hsign hwhole.1, scanWhole_append hwhole hafter]
  show (scanFraction atEnd after >>= _) = _
  rw [hfraction]
  show (scanExponent atEnd after' >>= _) = _
  rw [hexponent]
  rfl

/-- What is written as a number is read as one. -/
theorem scanNumeral_numberText (atEnd : Fault) (h : NumberText text) (hrest : Ends rest) :
    ∃ numeral, scanNumeral atEnd (text ++ rest) = .ok (numeral, rest) := by
  obtain ⟨sign, whole, fraction, exponent, rfl, hsign, hwhole, hfraction, hexponent⟩ := h
  have hpoint := hexponent.head_ne hrest
  obtain ⟨_, hfraction'⟩ := scanFraction_append atEnd hfraction hpoint
  obtain ⟨_, hexponent'⟩ := scanExponent_append atEnd hexponent hrest
  simp only [List.append_assoc]
  exact ⟨_, scanNumeral_append atEnd hsign hwhole (hfraction.head_ne hpoint) hfraction' hexponent'⟩

/-! ### Words -/

theorem wholeText_render (n : Nat) : WholeText (Decimal.render n) :=
  ⟨⟨Decimal.render_ne_nil n, fun _ => Decimal.isDigit_of_mem_render⟩, fun _ h => Decimal.head_render h rfl⟩

theorem digitsValue_map (digits : List Char) :
    digitsValue (digits.map Decimal.digitValue) = Decimal.valueOf digits := by
  induction digits using List.reverseRecOn with
  | nil => rfl
  | append_singleton digits c ih =>
    rw [Decimal.valueOf_concat, ← ih, digitsValue, List.map_append, List.foldl_append]
    rfl

/-- Digits that make up a word are taken up in full. -/
theorem absorb_of_lt {value : Nat} {values : List Nat}
    (h : values.foldl (fun value d => value * 10 + d) value < Word.bound) :
    absorb value values = (values.foldl (fun value d => value * 10 + d) value, []) := by
  have hgrows : ∀ (values : List Nat) (value : Nat), value ≤ values.foldl (fun value d => value * 10 + d) value := by
    intro values
    induction values with
    | nil => exact fun value => Nat.le_refl value
    | cons d values ih => exact fun value => Nat.le_trans (by omega) (ih (value * 10 + d))
  induction values generalizing value with
  | nil => rfl
  | cons d values ih =>
    rw [absorb, if_pos (Nat.lt_of_le_of_lt (hgrows values _) h), ih h]
    rfl

theorem roundedToDouble_le (n : Nat) : roundedToDouble n ≤ 2 * n := by
  rcases Nat.eq_zero_or_pos n with rfl | hpos
  · decide
  · have hunit : Nat.pow 2 (n.log2 + 1 - 53) ≤ n :=
      Nat.le_trans (Nat.pow_le_pow_right Nat.two_pos (by omega)) (Nat.log2_self_le hpos.ne')
    have hkept := Nat.div_mul_le_self n (Nat.pow 2 (n.log2 + 1 - 53))
    simp only [roundedToDouble]
    split
    · rw [Nat.add_mul]
      omega
    · omega

/-- No word is too large for floating point. -/
theorem isInfinite_of_lt (h : n < Word.bound) : isInfinite n 0 = false := by
  have hone : roundedToDouble (Nat.pow 10 (0 : Int).toNat) = 1 := by decide
  have hinfinite : 2 * Word.bound ≤ infiniteFrom := by decide +kernel
  have hn := roundedToDouble_le n
  rw [isInfinite]
  split
  · rfl
  · rw [if_neg (by decide), hone, decide_eq_false_iff_not]
    omega

theorem value_of_word (whole : List Nat) (h : digitsValue whole < Word.bound) :
    Numeral.value ⟨false, whole, [], none⟩ = .ok (digitsValue whole) := by
  have hoverflows : Numeral.overflows ⟨false, whole, [], none⟩ = false := by
    have habsorb : absorb 0 whole = (digitsValue whole, []) := absorb_of_lt h
    rw [Numeral.overflows, habsorb]
    exact isInfinite_of_lt h
  rw [Numeral.value, hoverflows]
  exact if_pos h

/-- A word is read from its digits. -/
theorem readWord_render (h : n < Word.bound) (hgap : Gap gap) (hrest : Ends rest) :
    readWord (gap ++ (Decimal.render n ++ rest)) = .ok (n, rest) := by
  have hscan := scanNumeral_append .truncated (.inl rfl) (wholeText_render n)
    (fun c hc => (hrest.head_ne c hc).1) (scanFraction_nil fun c hc => (hrest.head_ne c hc).2.1)
    (scanExponent_nil hrest)
  have hvalue := value_of_word ((Decimal.render n).map Decimal.digitValue)
  rw [digitsValue_map, Decimal.valueOf_render] at hvalue
  obtain ⟨c, tail, htext⟩ := List.exists_cons_of_ne_nil (Decimal.render_ne_nil n)
  have hc : Decimal.IsDigit c := Decimal.isDigit_of_mem_render (htext ▸ List.mem_cons_self)
  rw [List.nil_append, htext] at hscan
  rw [htext] at hvalue ⊢
  rw [readWord, skipBlank_gap hgap, List.cons_append, skipBlank_cons (isBlank_of_isDigit hc)]
  dsimp only
  rw [if_pos (.inr (Decimal.digit?_of_isDigit hc ▸ rfl))]
  rw [List.cons_append] at hscan
  rw [hscan]
  show (Numeral.value ⟨false, _, [], none⟩ >>= _) = _
  rw [hvalue h]
  rfl

end Motif.Json
