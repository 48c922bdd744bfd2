import Mathlib
import EventStore.Lib.Positional

/-!
Zero-padded decimal numbers.
-/

namespace Decimal

def padded (width n : Nat) : String :=
  .ofList (List.replicate (width - (Nat.toDigits 10 n).length) '0' ++ Nat.toDigits 10 n)

/-- A number that fits its width is written in exactly that many digits. -/
theorem toList_padded {width n : Nat} (h : n < 10 ^ (width + 1)) :
    (padded (width + 1) n).toList = Positional.written 10 Nat.digitChar (width + 1) n := by
  rw [padded, String.toList_ofList]
  induction width generalizing n with
  | zero =>
    replace h : n < 10 := h
    simp [Nat.toDigits_of_lt_base h, Positional.written, Nat.mod_eq_of_lt h]
  | succ width ih =>
    rw [Positional.written_succ, ← ih (Nat.div_lt_of_lt_mul (h.trans_eq (pow_succ' 10 _)))]
    rcases Nat.lt_or_ge n 10 with hlt | hge
    · simp [Nat.toDigits_of_lt_base, hlt, Nat.div_eq_of_lt hlt, Nat.mod_eq_of_lt hlt,
        List.replicate_succ']
    · rw [Nat.toDigits_of_base_le (by decide) hge, List.length_append, List.length_singleton,
        Nat.add_sub_add_right, List.append_assoc]

/-- The characters are digits of that value, with zeros in front only to reach the width. -/
structure Numeral (width n : Nat) (chars : List Char) : Prop where
  digits : ∀ c ∈ chars, c.isDigit = true
  value : Nat.ofDigitChars 10 chars 0 = n
  least : chars.length = width ∨ width < chars.length ∧ 10 ^ (chars.length - 1) ≤ n

theorem padded_numeral {width : Nat} (hwidth : 0 < width) (n : Nat) :
    Numeral width n (padded width n).toList := by
  rw [padded, String.toList_ofList]
  refine ⟨fun c hc => ?_, ?_, ?_⟩
  · rcases List.mem_append.mp hc with hc | hc
    · rw [List.eq_of_mem_replicate hc]
      rfl
    · exact Nat.isDigit_of_mem_toDigits (by decide) (by decide) hc
  · rw [Nat.ofDigitChars_append, Nat.ofDigitChars_replicate_zero, Nat.mul_zero,
      Nat.ofDigitChars_ten_toDigits]
  · rw [List.length_append, List.length_replicate]
    rcases Nat.lt_or_ge width (Nat.toDigits 10 n).length with hlt | hge
    · -- a shorter numeral would hold a smaller number
      refine .inr ⟨by omega, not_lt.mp fun hsmall => ?_⟩
      have hle := (Nat.length_toDigits_le_iff (by decide) (by omega)).mpr hsmall
      omega
    · exact .inl (Nat.sub_add_cancel hge)

end Decimal
