import Mathlib.Data.Nat.Digits.Defs
import Mathlib.Tactic.Ring
import Motif.Decimal

/-!
# Numbers and their digits

What is read as a number is said by `Spells`: digits, perhaps after a plus sign, whose value in base ten is a
machine word. Reading stops at the first digit that makes the value too large, and as the value only grows, this
is the same as looking at the value of all digits (`readWord_eq_ok_iff`).

The digits that are written for a number stand for it (`valueOf_render`), and the first of them is a zero only
when it is the only one (`head_render`).
-/

namespace Motif.Decimal

/-- One of the characters `0` to `9`. -/
def IsDigit (c : Char) : Prop := '0' ≤ c ∧ c ≤ '9'

instance : DecidablePred IsDigit := fun c => inferInstanceAs (Decidable ('0' ≤ c ∧ c ≤ '9'))

def digitValue (c : Char) : Nat := c.toNat - '0'.toNat

/-- The number that digits stand for, the last of them being the ones. -/
def valueOf (digits : List Char) : Nat := Nat.ofDigits 10 (digits.reverse.map digitValue)

/-- The text is a number that is a machine word: its digits, which may follow a plus sign. -/
def Spells (text : List Char) (n : Nat) : Prop :=
  ∃ digits, (text = digits ∨ text = '+' :: digits) ∧ digits ≠ [] ∧ (∀ c ∈ digits, IsDigit c) ∧
    valueOf digits = n ∧ n < Word.bound

variable {c : Char} {digits text : List Char} {value n : Nat}

/-! ### Digits and their values -/

theorem digit?_of_isDigit (h : IsDigit c) : digit? c = some (digitValue c) := if_pos h

theorem digit?_of_not_isDigit (h : ¬ IsDigit c) : digit? c = none := if_neg h

theorem eq_zero_of_digitValue (h : IsDigit c) (hzero : digitValue c = 0) : c = '0' := by
  have hle : '0'.toNat ≤ c.toNat := h.1
  have heq : c.toNat = '0'.toNat := by
    rw [digitValue] at hzero
    omega
  rw [← Char.ofNat_toNat c, heq]
  rfl

theorem valueOf_concat (digits : List Char) (c : Char) :
    valueOf (digits ++ [c]) = valueOf digits * 10 + digitValue c := by
  rw [valueOf, List.reverse_append, List.reverse_singleton, List.singleton_append, List.map_cons,
    Nat.ofDigits_cons, valueOf, Nat.mul_comm, Nat.add_comm]

theorem valueOf_cons (c : Char) (digits : List Char) :
    valueOf (c :: digits) = digitValue c * 10 ^ digits.length + valueOf digits := by
  rw [valueOf, List.reverse_cons, List.map_append, Nat.ofDigits_append, List.map_singleton,
    Nat.ofDigits_singleton, List.length_map, List.length_reverse, valueOf, Nat.mul_comm, Nat.add_comm]

/-! ### Reading -/

/-- Digits after those of `value` are read when the value that all of them make up is a word. -/
theorem readDigits_eq_ok_iff (hvalue : value < Word.bound) : readDigits value digits = .ok n ↔
    (∀ c ∈ digits, IsDigit c) ∧ value * 10 ^ digits.length + valueOf digits = n ∧ n < Word.bound := by
  induction digits generalizing value with
  | nil =>
    have hempty : value * 10 ^ ([] : List Char).length + valueOf [] = value := by simp [valueOf]
    rw [readDigits, hempty]
    refine ⟨fun h => ?_, fun ⟨_, h, _⟩ => congrArg Except.ok h⟩
    obtain rfl := Except.ok.inj h
    exact ⟨by simp, rfl, hvalue⟩
  | cons c digits ih =>
    rw [readDigits]
    by_cases hc : IsDigit c
    · have hsplit : value * 10 ^ (c :: digits).length + valueOf (c :: digits) =
          (value * 10 + digitValue c) * 10 ^ digits.length + valueOf digits := by
        rw [valueOf_cons, List.length_cons, Nat.pow_succ]
        ring
      rw [digit?_of_isDigit hc, hsplit, List.forall_mem_cons, and_iff_right hc]
      dsimp only
      split
      · rename_i hword
        exact ih hword
      · rename_i hlarge
        refine ⟨fun h => by contradiction, fun ⟨_, hn, hword⟩ => absurd ?_ hlarge⟩
        -- the value so far is at most that of all digits
        have hle : value * 10 + digitValue c ≤ (value * 10 + digitValue c) * 10 ^ digits.length :=
          Nat.le_mul_of_pos_right _ (Nat.pow_pos (by decide))
        omega
    · rw [digit?_of_not_isDigit hc]
      refine ⟨fun h => by contradiction, fun ⟨hdigits, _⟩ => ?_⟩
      exact absurd (hdigits c List.mem_cons_self) hc

theorem readDigits_zero_eq_ok_iff : readDigits 0 digits = .ok n ↔
    (∀ c ∈ digits, IsDigit c) ∧ valueOf digits = n ∧ n < Word.bound := by
  rw [readDigits_eq_ok_iff (by decide), Nat.zero_mul, Nat.zero_add]

/-- A plus sign is no digit. -/
theorem not_isDigit_plus : ¬ IsDigit '+' := by decide

/-- Exactly the spellings of a word are read as this word. -/
theorem readWord_eq_ok_iff : readWord text = .ok n ↔ Spells text n := by
  rw [readWord.eq_def]
  split
  · refine ⟨fun h => by contradiction, ?_⟩
    rintro ⟨digits, rfl | h, hne, _⟩
    · contradiction
    · contradiction
  · refine ⟨fun h => by contradiction, ?_⟩
    rintro ⟨digits, rfl | h, hne, hdigits, _⟩
    · exact absurd (hdigits '+' List.mem_cons_self) not_isDigit_plus
    · exact absurd (List.cons.inj h).2.symm hne
  · rename_i digits hsign
    rw [readDigits_zero_eq_ok_iff]
    refine ⟨fun h => ⟨digits, .inr rfl, fun hnil => hsign hnil, h⟩, ?_⟩
    rintro ⟨digits', rfl | h, hne, hdigits, hvalue⟩
    · exact absurd (hdigits '+' List.mem_cons_self) not_isDigit_plus
    · obtain rfl := (List.cons.inj h).2
      exact ⟨hdigits, hvalue⟩
  · rename_i hne hsign hplus
    rw [readDigits_zero_eq_ok_iff]
    refine ⟨fun h => ⟨text, .inl rfl, hne, h⟩, ?_⟩
    rintro ⟨digits, rfl | h, _, hdigits⟩
    · exact hdigits
    · exact absurd h (hplus digits)

/-! ### Writing -/

theorem digitChar_spec : ∀ d < 10, IsDigit (digitChar d) ∧ digitValue (digitChar d) = d := by decide

theorem isDigit_of_mem_render : c ∈ render n → IsDigit c := by
  fun_induction render n with
  | case1 n hlt =>
    intro hc
    obtain rfl := List.mem_singleton.mp hc
    exact (digitChar_spec n hlt).1
  | case2 n hge ih =>
    intro hc
    rcases List.mem_append.mp hc with hc | hc
    · exact ih hc
    · obtain rfl := List.mem_singleton.mp hc
      exact (digitChar_spec _ (Nat.mod_lt n (Nat.succ_pos 9))).1

theorem render_ne_nil (n : Nat) : render n ≠ [] := by
  rw [render]
  split <;> simp

theorem valueOf_render (n : Nat) : valueOf (render n) = n := by
  fun_induction render n with
  | case1 n hlt =>
    have hsingle := valueOf_concat [] (digitChar n)
    rw [List.nil_append, (digitChar_spec n hlt).2] at hsingle
    simpa [valueOf] using hsingle
  | case2 n hge ih =>
    rw [valueOf_concat, ih, (digitChar_spec _ (Nat.mod_lt n (Nat.succ_pos 9))).2]
    exact Nat.div_add_mod' n 10

/-- A number that is a word is read back from its digits. -/
theorem readWord_render (h : n < Word.bound) : readWord (render n) = .ok n := by
  rw [readWord_eq_ok_iff]
  exact ⟨render n, .inl rfl, render_ne_nil n, fun _ => isDigit_of_mem_render, valueOf_render n, h⟩

/-- A zero in front stands alone. -/
theorem head_render {rest : List Char} (h : render n = c :: rest) (hc : digitValue c = 0) : rest = [] := by
  fun_induction render n generalizing rest with
  | case1 n hlt => exact (List.cons.inj h).2.symm
  | case2 n hge ih =>
    cases hfront : render (n / 10) with
    | nil => exact absurd hfront (render_ne_nil _)
    | cons c' front =>
      rw [hfront] at h
      obtain ⟨rfl, rfl⟩ := List.cons.inj h
      obtain rfl := ih hfront
      -- the number without its last digit would be zero, but it has at least two digits
      have hvalue := valueOf_render (n / 10)
      rw [hfront, valueOf_cons, hc] at hvalue
      have hzero : n / 10 = 0 := by simpa [valueOf] using hvalue.symm
      omega

end Motif.Decimal
