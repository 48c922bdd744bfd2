import Mathlib

/-!
The proleptic Gregorian calendar: which years are leap years, how long their months are, and
which date follows another. Two dates are as far apart as the steps from one to the other.
-/
namespace Calendar

def isLeap (year : Int) : Bool := year % 4 = 0 ∧ (year % 100 ≠ 0 ∨ year % 400 = 0)

def monthLength (leap : Bool) (month : Int) : Int :=
  if month = 2 then if leap then 29 else 28
  else if month = 4 ∨ month = 6 ∨ month = 9 ∨ month = 11 then 30
  else 31

@[ext] structure Date where
  year : Int
  month : Int
  day : Int
deriving DecidableEq

namespace Date

def length (d : Date) : Int := monthLength (isLeap d.year) d.month

def Valid (d : Date) : Prop := 1 ≤ d.month ∧ d.month ≤ 12 ∧ 1 ≤ d.day ∧ d.day ≤ d.length

def next (d : Date) : Date :=
  if d.day < d.length then ⟨d.year, d.month, d.day + 1⟩
  else if d.month < 12 then ⟨d.year, d.month + 1, 1⟩
  else ⟨d.year + 1, 1, 1⟩

theorem next_of_lt {d : Date} (h : d.day < d.length) : d.next = ⟨d.year, d.month, d.day + 1⟩ :=
  if_pos h

theorem next_of_month {d : Date} (h : ¬d.day < d.length) (hmonth : d.month < 12) :
    d.next = ⟨d.year, d.month + 1, 1⟩ := by rw [next, if_neg h, if_pos hmonth]

theorem next_of_year {d : Date} (h : ¬d.day < d.length) (hmonth : ¬d.month < 12) :
    d.next = ⟨d.year + 1, 1, 1⟩ := by rw [next, if_neg h, if_neg hmonth]

def epoch : Date := ⟨1970, 1, 1⟩

/-- The date is `days` after the epoch, or the epoch `-days` after the date. -/
def DaysFromEpoch (days : Int) (d : Date) : Prop :=
  d.Valid ∧ next^[days.toNat] epoch = next^[(-days).toNat] d

theorem length_pos (d : Date) : 1 ≤ d.length := by
  unfold length monthLength
  split <;> split <;> decide

theorem Valid.next {d : Date} (h : d.Valid) : d.next.Valid := by
  obtain ⟨hmonth, hmonth', hday, hday'⟩ := h
  by_cases hlast : d.day < d.length
  · rw [next_of_lt hlast]
    exact ⟨hmonth, hmonth', Int.le_add_one hday, hlast⟩
  by_cases hyear : d.month < 12
  · rw [next_of_month hlast hyear]
    exact ⟨Int.le_add_one hmonth, hyear, le_rfl, length_pos _⟩
  · rw [next_of_year hlast hyear]
    exact ⟨le_rfl, (by decide : (1 : Int) ≤ 12), le_rfl, length_pos _⟩

theorem day_next {d : Date} (h : ¬d.day < d.length) : d.next.day = 1 := by
  rw [next, if_neg h]
  split <;> rfl

/-- No two dates have the same next one. -/
theorem Valid.next_inj {d d' : Date} (h : d.Valid) (h' : d'.Valid) (heq : d.next = d'.next) :
    d = d' := by
  obtain ⟨hfirst, hmonth, hday, hlength⟩ := h
  obtain ⟨hfirst', hmonth', hday', hlength'⟩ := h'
  have hsame := congrArg Date.day heq
  by_cases hlast : d.day < d.length
  · by_cases hlast' : d'.day < d'.length
    · rw [next_of_lt hlast, next_of_lt hlast', Date.mk.injEq] at heq
      exact Date.ext heq.1 heq.2.1 (by omega)
    · rw [next_of_lt hlast, day_next hlast'] at hsame
      dsimp only at hsame
      omega
  by_cases hlast' : d'.day < d'.length
  · rw [next_of_lt hlast', day_next hlast] at hsame
    dsimp only at hsame
    omega
  -- both are the last of their month, and so of the same one
  have hdates : d.year = d'.year ∧ d.month = d'.month := by
    by_cases hyear : d.month < 12 <;> by_cases hyear' : d'.month < 12
    · rw [next_of_month hlast hyear, next_of_month hlast' hyear', Date.mk.injEq] at heq
      omega
    · rw [next_of_month hlast hyear, next_of_year hlast' hyear', Date.mk.injEq] at heq
      omega
    · rw [next_of_year hlast hyear, next_of_month hlast' hyear', Date.mk.injEq] at heq
      omega
    · rw [next_of_year hlast hyear, next_of_year hlast' hyear', Date.mk.injEq] at heq
      omega
  have hlengths : d.length = d'.length := by rw [length, length, hdates.1, hdates.2]
  exact Date.ext hdates.1 hdates.2 (by omega)

theorem Valid.iterate_next_inj {d d' : Date} {k : Nat} (h : d.Valid) (h' : d'.Valid)
    (heq : Date.next^[k] d = Date.next^[k] d') : d = d' := by
  induction k generalizing d d' with
  | zero => exact heq
  | succ k ih => exact h.next_inj h' (ih h.next h'.next heq)

theorem DaysFromEpoch.unique {days : Int} {d d' : Date} (h : d.DaysFromEpoch days)
    (h' : d'.DaysFromEpoch days) : d = d' :=
  h.1.iterate_next_inj h'.1 (h.2.symm.trans h'.2)

def fields (d : Date) : List Int := [d.year, d.month, d.day]

theorem fields_lt_next (d : Date) : d.fields < d.next.fields := by
  unfold fields next
  split
  · exact .cons (.cons (.rel (lt_add_one _)))
  split
  · exact .cons (.rel (lt_add_one _))
  · exact .rel (lt_add_one _)

end Date

/-- Dates that follow one another from the epoch on are as far from it as their number says. -/
theorem daysFromEpoch {date : Int → Date} (hvalid : ∀ n, (date n).Valid) (hzero : date 0 = .epoch)
    (hnext : ∀ n, date (n + 1) = (date n).next) (days : Int) :
    Date.DaysFromEpoch days (date days) := by
  have hsteps : ∀ (k : Nat) n, Date.next^[k] (date n) = date (n + k) := by
    intro k
    induction k with
    | zero => intro n; simp
    | succ k ih =>
      intro n
      rw [Function.iterate_succ_apply, ← hnext, ih]
      congr 1
      omega
  refine ⟨hvalid days, ?_⟩
  rw [← hzero, hsteps, hsteps]
  congr 1
  omega

/-- The later of two dates has the larger fields. -/
theorem fields_lt {date : Int → Date} (hnext : ∀ n, date (n + 1) = (date n).next) {m n : Int}
    (h : m < n) : (date m).fields < (date n).fields := by
  induction n, h using Int.leInduction with
  | base => exact hnext m ▸ Date.fields_lt_next _
  | succ n _ ih => exact List.lt_trans ih (hnext n ▸ Date.fields_lt_next _)

end Calendar
