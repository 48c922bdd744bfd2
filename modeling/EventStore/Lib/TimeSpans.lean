import Mathlib.Order.Lattice
import Mathlib.Tactic.Linarith

/-!
Spans of time as whole nanoseconds below 2^64 seconds. A checked operation has no value when the
exact result is not a span; a saturating one takes the longest span then.
-/

structure TimeSpan where
  nanos : Nat
  fits : nanos < 2 ^ 64 * 10 ^ 9
deriving DecidableEq

namespace TimeSpan

theorem nanos_injective : Function.Injective nanos := by
  rintro ⟨a, ha⟩ ⟨b, hb⟩ h
  cases h
  rfl

instance instLinearOrder : LinearOrder TimeSpan := LinearOrder.lift' nanos nanos_injective

variable {a b : TimeSpan}

theorem le_iff : a ≤ b ↔ a.nanos ≤ b.nanos := Iff.rfl

theorem lt_iff : a < b ↔ a.nanos < b.nanos := Iff.rfl

@[simp] theorem nanos_min (a b : TimeSpan) : (min a b).nanos = min a.nanos b.nanos := by
  rcases le_total a b with h | h
  · rw [min_eq_left h, Nat.min_eq_left (le_iff.mp h)]
  · rw [min_eq_right h, Nat.min_eq_right (le_iff.mp h)]

theorem div_fits (d : TimeSpan) (n : Nat) : d.nanos / n < 2 ^ 64 * 10 ^ 9 :=
  Nat.lt_of_le_of_lt (Nat.div_le_self _ _) d.fits

theorem zero_fits : 0 < 2 ^ 64 * 10 ^ 9 := by
  decide

theorem longest_fits : 2 ^ 64 * 10 ^ 9 - 1 < 2 ^ 64 * 10 ^ 9 := by
  decide

def zero : TimeSpan := ⟨0, zero_fits⟩

def longest : TimeSpan := ⟨2 ^ 64 * 10 ^ 9 - 1, longest_fits⟩

def ofNanos (nanos : Nat) : Option TimeSpan :=
  if h : nanos < 2 ^ 64 * 10 ^ 9 then some ⟨nanos, h⟩ else none

def add (a b : TimeSpan) : Option TimeSpan := ofNanos (a.nanos + b.nanos)

def mul (a : TimeSpan) (n : Nat) : Option TimeSpan := ofNanos (a.nanos * n)

def sub (a b : TimeSpan) : Option TimeSpan :=
  if b.nanos ≤ a.nanos then ofNanos (a.nanos - b.nanos) else none

def div (a : TimeSpan) (n : Nat) : TimeSpan := ⟨a.nanos / n, div_fits a n⟩

def saturatingAdd (a b : TimeSpan) : TimeSpan := (a.add b).getD longest

def saturatingMul (a : TimeSpan) (n : Nat) : TimeSpan := (a.mul n).getD longest

variable {d : TimeSpan} {nanos : Nat}

theorem ofNanos_eq_some : ofNanos nanos = some d ↔ d.nanos = nanos := by
  unfold ofNanos
  split
  case isTrue h =>
      simp only [Option.some.injEq]
      exact ⟨fun heq => heq ▸ rfl, fun heq => nanos_injective heq.symm⟩
  case isFalse h =>
      simp only [reduceCtorEq, false_iff]
      rintro rfl
      exact h d.fits

theorem ofNanos_eq_none : ofNanos nanos = none ↔ 2 ^ 64 * 10 ^ 9 ≤ nanos := by
  unfold ofNanos
  split
  case isTrue h => simp only [reduceCtorEq, false_iff, not_le, h]
  case isFalse h => simpa using h

theorem add_eq_some : a.add b = some d ↔ d.nanos = a.nanos + b.nanos :=
  ofNanos_eq_some

theorem add_eq_none : a.add b = none ↔ 2 ^ 64 * 10 ^ 9 ≤ a.nanos + b.nanos :=
  ofNanos_eq_none

theorem mul_eq_some {n : Nat} : a.mul n = some d ↔ d.nanos = a.nanos * n :=
  ofNanos_eq_some

theorem sub_eq_some : a.sub b = some d ↔ b.nanos ≤ a.nanos ∧ d.nanos = a.nanos - b.nanos := by
  unfold sub
  split
  case isTrue h => rw [ofNanos_eq_some, and_iff_right h]
  case isFalse h => simp only [reduceCtorEq, h, false_and]

theorem exists_ofNanos (h : nanos < 2 ^ 64 * 10 ^ 9) :
    ∃ d, ofNanos nanos = some d ∧ d.nanos = nanos :=
  ⟨⟨nanos, h⟩, ofNanos_eq_some.mpr rfl, rfl⟩

theorem exists_add {c : TimeSpan} (h : a.nanos + b.nanos ≤ c.nanos) :
    ∃ d, a.add b = some d ∧ d.nanos = a.nanos + b.nanos :=
  ⟨⟨a.nanos + b.nanos, Nat.lt_of_le_of_lt h c.fits⟩, add_eq_some.mpr rfl, rfl⟩

theorem exists_sub (h : b.nanos ≤ a.nanos) : ∃ d, a.sub b = some d ∧ d.nanos = a.nanos - b.nanos :=
  ⟨⟨a.nanos - b.nanos, Nat.lt_of_le_of_lt (Nat.sub_le _ _) a.fits⟩,
    sub_eq_some.mpr ⟨h, rfl⟩, rfl⟩

theorem saturatingAdd_lt {c : TimeSpan} : a.saturatingAdd b < c ↔ a.nanos + b.nanos < c.nanos := by
  rw [lt_iff, saturatingAdd]
  have hfits := c.fits
  cases hadd : a.add b with
  | none =>
    have hlong := add_eq_none.mp hadd
    simp only [Option.getD_none, longest]
    omega
  | some d => rw [Option.getD_some, add_eq_some.mp hadd]

end TimeSpan
