import Mathlib.Data.Nat.ModEq
import Mathlib.Order.Lattice

/-!
Numbers written in a fixed number of digits, the most significant first. Where larger digits
are written as larger characters, the texts compare as the numbers do.
-/
namespace Positional

variable {β : Type*}

def written (base : Nat) (digit : Nat → β) : Nat → Nat → List β
  | 0, _ => []
  | width + 1, n => digit (n / base ^ width % base) :: written base digit width n

theorem length_written (base : Nat) (digit : Nat → β) (width n : Nat) :
    (written base digit width n).length = width := by
  induction width with
  | zero => rfl
  | succ width ih => rw [written, List.length_cons, ih]

theorem written_eq_map (base : Nat) (digit : Nat → β) (width n : Nat) :
    written base digit width n =
      (List.range width).map fun index => digit (n / base ^ (width - 1 - index) % base) := by
  induction width with
  | zero => rfl
  | succ width ih =>
    rw [written, ih, List.range_succ_eq_map, List.map_cons, List.map_map]
    congr 1
    refine List.map_congr_left fun index _ => ?_
    congr 4
    omega

theorem written_succ (base : Nat) (digit : Nat → β) (width n : Nat) :
    written base digit (width + 1) n =
      written base digit width (n / base) ++ [digit (n % base)] := by
  induction width with
  | zero => simp [written]
  | succ width ih =>
    rw [written, ih, written, Nat.div_div_eq_div_mul, ← pow_succ', List.cons_append]

/-- Numbers in fields of their widths, each field followed by its mark. -/
def separated (base : Nat) (digit : Nat → β) : List (Nat × β) → List Int → List β
  | (width, mark) :: marks, n :: ns =>
    written base digit width n.natAbs ++ mark :: separated base digit marks ns
  | _, _ => []

theorem mod_pow_succ_eq (base width n : Nat) :
    n % base ^ (width + 1) = n / base ^ width % base * base ^ width + n % base ^ width := by
  rw [pow_succ, Nat.mod_mul, Nat.add_comm, Nat.mul_comm]

variable [LinearOrder β]

theorem written_lt_of_mod_lt {base : Nat} (hbase : 0 < base) {digit : Nat → β}
    (hdigit : ∀ i j, i < j → j < base → digit i < digit j) (width : Nat) {m n : Nat}
    (h : m % base ^ width < n % base ^ width) :
    written base digit width m < written base digit width n := by
  induction width with
  | zero => simp [Nat.mod_one] at h
  | succ width ih =>
    rw [mod_pow_succ_eq, mod_pow_succ_eq base width n] at h
    have hpow : 0 < base ^ width := Nat.pow_pos hbase
    rw [written, written]
    rcases Nat.lt_trichotomy (m / base ^ width % base) (n / base ^ width % base) with
      hlt | heq | hgt
    · exact .rel (hdigit _ _ hlt (Nat.mod_lt _ hbase))
    · rw [heq] at h ⊢
      exact .cons (ih (Nat.lt_of_add_lt_add_left h))
    · refine absurd h (Nat.not_lt.mpr ?_)
      calc n / base ^ width % base * base ^ width + n % base ^ width
          ≤ (n / base ^ width % base + 1) * base ^ width := by
            rw [Nat.succ_mul]
            exact Nat.add_le_add_left (Nat.mod_lt n hpow).le _
        _ ≤ m / base ^ width % base * base ^ width := Nat.mul_le_mul_right _ hgt
        _ ≤ _ := Nat.le_add_right _ _

theorem written_lt_written {base : Nat} (hbase : 0 < base) {digit : Nat → β}
    (hdigit : ∀ i j, i < j → j < base → digit i < digit j) (width : Nat) {m n : Nat}
    (hn : n < base ^ width) (h : m < n) :
    written base digit width m < written base digit width n := by
  refine written_lt_of_mod_lt hbase hdigit width ?_
  rwa [Nat.mod_eq_of_lt (h.trans hn), Nat.mod_eq_of_lt hn]

theorem append_lt_append_of_lt {xs ys : List β} (hlength : xs.length = ys.length) (h : xs < ys)
    (more more' : List β) : xs ++ more < ys ++ more' := by
  induction h with
  | nil => cases hlength
  | cons _ ih => exact .cons (ih (Nat.succ.inj hlength))
  | rel h => exact .rel h

def Fit (base : Nat) : List (Nat × β) → List Int → Prop :=
  List.Forall₂ fun mark n => 0 ≤ n ∧ n < base ^ mark.1

/-- Numbers in fields compare as the first of them that differ. -/
theorem separated_lt {base : Nat} (hbase : 0 < base) {digit : Nat → β}
    (hdigit : ∀ i j, i < j → j < base → digit i < digit j) {marks : List (Nat × β)}
    {ns ns' : List Int} (hns : Fit base marks ns) (hns' : Fit base marks ns') (h : ns < ns') :
    separated base digit marks ns < separated base digit marks ns' := by
  induction hns generalizing ns' with
  | nil =>
    cases hns'
    cases h
  | @cons mark n marks ns hn _ ih =>
    obtain ⟨width, mark⟩ := mark
    obtain _ | ⟨hn', hns'⟩ := hns'
    rename_i n' ns'
    cases h with
    | cons h =>
      rw [separated, separated]
      exact List.append_left_lt (.cons (ih hns' h))
    | rel h =>
      rw [separated, separated]
      refine append_lt_append_of_lt ?_ (written_lt_written hbase hdigit width ?_ ?_) _ _
      · rw [length_written, length_written]
      · have hlt : (n'.natAbs : Int) < base ^ width := by
          rw [Int.natAbs_of_nonneg hn'.1]
          exact hn'.2
        exact_mod_cast hlt
      · have := hn.1
        omega

end Positional
