import EventStore.Core.Timestamps
import EventStore.Numbers.Scanning

/-!
The text of a timestamp shows the date and time of day of its Unix second, for every 64-bit one.
-/
namespace EventStore
namespace Timestamps

open Calendar

/-! Years of an era begin in March, so that the leap day is their last. -/

def yearOfEra (d : Int) : Int := (d - d / 1460 + d / 36524 - d / 146096) / 365

def yearStart (y : Int) : Int := 365 * y + y / 4 - y / 100

def yearDays (y : Int) : Int := if isLeap (y + 1) then 366 else 365

def monthIndex (doy : Int) : Int := (5 * doy + 2) / 153

def monthOf (doy : Int) : Int :=
  if monthIndex doy < 10 then monthIndex doy + 3 else monthIndex doy - 9

def dayOf (doy : Int) : Int := doy - (153 * monthIndex doy + 2) / 5 + 1

def dateOf (era y doy : Int) : Date :=
  ⟨y + era * 400 + if monthOf doy ≤ 2 then 1 else 0, monthOf doy, dayOf doy⟩

variable {d : Int}

theorem yearOfEra_le_succ (h : 0 ≤ d) (hd : d < 146096) :
    yearOfEra d ≤ yearOfEra (d + 1) := Int.ediv_le_ediv (by decide) (by omega)

theorem yearOfEra_mono {e : Int} (h : 0 ≤ d) (hle : d ≤ e) (he : e < 146097) :
    yearOfEra d ≤ yearOfEra e := by
  induction e, hle using Int.leInduction with
  | base => exact le_rfl
  | succ e hle ih => exact (ih (by omega)).trans (yearOfEra_le_succ (by omega) (by omega))

/-- The years of an era fill it, and the first and the last day of each are its own. -/
theorem year_table : ∀ y < 400, 0 ≤ yearStart (y : Nat) ∧ yearStart y + yearDays y ≤ 146097 ∧
    (y < 399 → yearStart (y + 1) = yearStart y + yearDays y) ∧
    yearOfEra (yearStart y) = y ∧ yearOfEra (yearStart y + yearDays y - 1) = y := by decide +kernel

/-- The days of a year are days of its months; February's length is the year's. -/
theorem month_table : ∀ leap : Bool, ∀ doy < if leap then 366 else 365,
    1 ≤ monthOf (doy : Nat) ∧ monthOf doy ≤ 12 ∧ 1 ≤ dayOf doy ∧
      dayOf doy ≤ monthLength leap (monthOf doy) := by decide +kernel

theorem month_end : ∀ leap : Bool, monthOf (if leap then 365 else 364) = 2 ∧
    dayOf (if leap then 365 else 364) = monthLength leap 2 := by decide +kernel

/-- They follow one another as the days of the months do. -/
theorem month_step : ∀ leap : Bool, ∀ doy < if leap then 365 else 364,
    (dayOf (doy : Nat) < monthLength leap (monthOf doy) ∧ monthOf (doy + 1) = monthOf doy ∧
        dayOf (doy + 1) = dayOf doy + 1) ∨
      (¬dayOf doy < monthLength leap (monthOf doy) ∧ dayOf (doy + 1) = 1 ∧ monthOf doy ≠ 2 ∧
        monthOf (doy + 1) = if monthOf doy < 12 then monthOf doy + 1 else 1) := by decide +kernel

variable {doy y : Nat}

theorem yearOfEra_of (hy : y < 400) (hdoy : (doy : Int) < yearDays y) :
    yearOfEra (yearStart y + doy) = y ∧ 0 ≤ yearStart y ∧ yearStart y + doy < 146097 := by
  obtain ⟨hstart, hend, -, hfirst, hlast⟩ := year_table y hy
  refine ⟨le_antisymm ?_ ?_, hstart, by omega⟩
  · exact (yearOfEra_mono (by omega) (by omega) (by omega)).trans hlast.le
  · exact hfirst.ge.trans (yearOfEra_mono hstart (by omega) (by omega))

theorem exists_year (h : 0 ≤ d) {k : Nat} (hk : k ≤ 399) (hlt : d < yearStart k + yearDays k) :
    ∃ y doy : Nat, y < 400 ∧ (doy : Int) < yearDays y ∧ d = yearStart y + doy := by
  induction k with
  | zero =>
    obtain ⟨doy, rfl⟩ := Int.eq_ofNat_of_zero_le h
    exact ⟨0, doy, by decide, hlt.trans_eq (zero_add _), (zero_add _).symm⟩
  | succ k ih =>
    by_cases hbefore : d < yearStart (k + 1 : Nat)
    · obtain ⟨-, -, hnext, -⟩ := year_table k (by omega)
      exact ih (by omega) (hbefore.trans_eq (hnext (by omega)))
    · obtain ⟨doy, hdoy⟩ := Int.eq_ofNat_of_zero_le (Int.sub_nonneg.mpr (Int.not_lt.mp hbefore))
      exact ⟨k + 1, doy, by omega, by omega, by omega⟩

/-- Every day is a day of a year of an era. -/
theorem exists_coordinates (z : Int) : ∃ (era : Int) (y doy : Nat), y < 400 ∧
    (doy : Int) < yearDays y ∧ z = era * 146097 + (yearStart y + doy) := by
  obtain ⟨y, doy, hy, hdoy, heq⟩ := exists_year (show 0 ≤ z % 146097 by omega) (le_refl 399)
    (show z % 146097 < 146097 by omega)
  exact ⟨z / 146097, y, doy, hy, hdoy, by omega⟩

variable {n : Int}

theorem int64_bind {α : Type} (h : -2 ^ 63 ≤ n ∧ n < 2 ^ 63) (f : Int → Option α) :
    (int64 n >>= f) = f n := by
  rw [int64, if_pos h]
  rfl

variable {days : Int}

/-- Nothing overflows, and the date is the one of the day's year and era. -/
theorem civilFromDays_eq {era : Int} (hy : y < 400) (hdoy : (doy : Int) < yearDays y)
    (hdays : days + 719468 = era * 146097 + (yearStart y + doy)) (hmin : -2 ^ 53 ≤ days)
    (hmax : days < 2 ^ 53) : civilFromDays days = some (dateOf era y doy) := by
  obtain ⟨hyear, hstart, hend⟩ := yearOfEra_of hy hdoy
  have hd : (days + 719468) % 146097 = yearStart y + doy := by omega
  have hera : (days + 719468) / 146097 = era := by omega
  have hrest : yearStart y + (doy : Int) - (365 * y + y / 4 - y / 100) = doy := by
    unfold yearStart
    omega
  have hlt : (doy : Int) < 366 := hdoy.trans_le (by unfold yearDays; split <;> decide)
  obtain ⟨hmonth, hmonth', hday, hday'⟩ : 1 ≤ monthOf doy ∧ monthOf doy ≤ 12 ∧ 1 ≤ dayOf doy ∧
      dayOf doy ≤ 366 := by unfold monthOf dayOf monthIndex; omega
  rw [civilFromDays, int64_bind (by omega)]
  simp only [hd, hera]
  -- the year of the era
  generalize yearStart y + (doy : Int) = d at hyear hend hd hrest
  rw [int64_bind (by omega), int64_bind (by omega), int64_bind (by omega)]
  simp only [show (d - d / 1460 + d / 36524 - d / 146096) / 365 = y from hyear]
  rw [int64_bind (by omega), int64_bind (by omega), int64_bind (by omega), hrest,
    int64_bind (by omega)]
  -- the month and the day in it
  rw [int64_bind (by omega), int64_bind (by omega)]
  simp only [show (5 * (doy : Int) + 2) / 153 = monthIndex doy from rfl]
  have hindex : 0 ≤ monthIndex doy ∧ monthIndex doy ≤ 12 := by unfold monthIndex; omega
  rw [int64_bind (by omega), int64_bind (by omega), int64_bind (by omega),
    show (doy : Int) - (153 * monthIndex doy + 2) / 5 + 1 = dayOf doy from rfl,
    int64_bind (by omega),
    show (if monthIndex doy < 10 then monthIndex doy + 3 else monthIndex doy - 9) = monthOf doy
      from rfl,
    int64_bind (by omega), int64_bind (by omega), int64_bind (by omega),
    int64_bind (by split <;> omega), Int.emod_eq_of_lt (by omega) (by omega),
    Int.emod_eq_of_lt (by omega) (by omega)]
  rfl

theorem length_dateOf (era : Int) (y doy : Nat) :
    (dateOf era y doy).length = monthLength (isLeap (y + 1)) (monthOf doy) := by
  unfold Date.length dateOf monthLength
  by_cases hfebruary : monthOf doy = 2
  · have hleap : isLeap (y + era * 400 + 1) = isLeap (y + 1) := by
      unfold isLeap
      refine decide_eq_decide.mpr ?_
      omega
    simp only [hfebruary, le_refl, if_true, hleap]
  · simp only [hfebruary, if_false]

theorem cast_yearDays : (doy : Int) < yearDays y ↔ doy < if isLeap (y + 1) then 366 else 365 := by
  unfold yearDays
  split <;> omega

theorem dateOf_valid (hdoy : (doy : Int) < yearDays y) (era : Int) : (dateOf era y doy).Valid := by
  obtain ⟨hmonth, hmonth', hday, hday'⟩ := month_table (isLeap (y + 1)) doy (cast_yearDays.mp hdoy)
  exact ⟨hmonth, hmonth', hday, hday'.trans_eq (length_dateOf era y doy).symm⟩

theorem dateOf_next (hdoy : (doy + 1 : Int) < yearDays y) (era : Int) :
    (dateOf era y doy).next = dateOf era y (doy + 1) := by
  have hlt : doy < if isLeap (y + 1) then 365 else 364 := by
    unfold yearDays at hdoy
    cases hleap : isLeap (y + 1) <;>
      simp only [hleap, if_true, if_false, Bool.false_eq_true] at hdoy ⊢ <;> omega
  rcases month_step (isLeap (y + 1)) doy hlt with
    ⟨hday, hmonth', hday'⟩ | ⟨hday, hday', hmonth, hmonth'⟩
  · rw [Date.next_of_lt (hday.trans_eq (length_dateOf era y doy).symm)]
    simp only [dateOf, hmonth', hday']
  · replace hday : ¬(dateOf era y doy).day < (dateOf era y doy).length := by rwa [length_dateOf]
    by_cases hdecember : monthOf doy < 12
    · rw [if_pos hdecember] at hmonth'
      rw [Date.next_of_month hday hdecember]
      simp only [dateOf, hmonth', hday']
      congr 2
      split <;> split <;> omega
    · rw [if_neg hdecember] at hmonth'
      rw [Date.next_of_year hday hdecember]
      simp only [dateOf, hmonth', hday']
      congr 1
      split <;> split <;> omega

theorem dateOf_yearEnd (hdoy : (doy + 1 : Int) = yearDays y) (era : Int) :
    (dateOf era y doy).next = dateOf era (y + 1) 0 := by
  obtain ⟨hmonth, hday⟩ : monthOf doy = 2 ∧ dayOf doy = monthLength (isLeap (y + 1)) 2 := by
    have hend := month_end (isLeap (y + 1))
    have hlast : (doy : Int) = if isLeap (y + 1) then 365 else 364 := by
      unfold yearDays at hdoy
      cases hleap : isLeap (y + 1) <;>
        simp only [hleap, if_true, if_false, Bool.false_eq_true] at hdoy ⊢ <;> omega
    rwa [← hlast] at hend
  rw [Date.next_of_month (by rw [length_dateOf, hmonth]; exact hday.not_lt)
    (show monthOf doy < 12 by omega)]
  simp only [dateOf, hmonth]
  congr 1
  change y + era * 400 + 1 = y + 1 + era * 400 + 0
  ring

def dateAt (days : Int) : Date :=
  let d := (days + 719468) % 146097
  dateOf ((days + 719468) / 146097) (yearOfEra d) (d - yearStart (yearOfEra d))

theorem dateAt_eq (era : Int) (y doy : Nat) (hy : y < 400) (hdoy : (doy : Int) < yearDays y)
    (hdays : days + 719468 = era * 146097 + (yearStart y + doy)) :
    dateAt days = dateOf era y doy := by
  obtain ⟨hyear, hstart, hend⟩ := yearOfEra_of hy hdoy
  have hd : (days + 719468) % 146097 = yearStart y + doy := by omega
  have hera : (days + 719468) / 146097 = era := by omega
  rw [dateAt, hd, hera, hyear, add_sub_cancel_left]

theorem dateAt_succ (days : Int) : dateAt (days + 1) = (dateAt days).next := by
  obtain ⟨era, y, doy, hy, hdoy, hdays⟩ := exists_coordinates (days + 719468)
  rw [dateAt_eq era y doy hy hdoy hdays]
  by_cases hyearEnd : (doy + 1 : Int) = yearDays y
  · rw [dateOf_yearEnd hyearEnd]
    obtain ⟨-, -, hnext, -⟩ := year_table y hy
    have hfirst : ∀ y : Int, 0 < yearDays y := by
      intro y
      unfold yearDays
      split <;> decide
    by_cases hera : y = 399
    · subst hera
      have hfull : yearStart 399 + yearDays 399 = 146097 := by decide
      have hstart : yearStart (0 : Nat) = 0 := rfl
      rw [dateAt_eq (era + 1) 0 0 (by decide) (hfirst 0) (by push_cast at *; omega), dateOf, dateOf]
      congr 1
      push_cast
      ring
    · have := hnext (by omega)
      exact dateAt_eq era (y + 1) 0 (by omega) (hfirst _) (by push_cast at *; omega)
  · rw [dateOf_next (by omega)]
    exact dateAt_eq era y (doy + 1) hy (by push_cast; omega) (by push_cast; omega)

theorem civilFromDays_dateAt (hmin : -2 ^ 53 ≤ days) (hmax : days < 2 ^ 53) :
    civilFromDays days = some (dateAt days) := by
  obtain ⟨era, y, doy, hy, hdoy, hdays⟩ := exists_coordinates (days + 719468)
  rw [dateAt_eq era y doy hy hdoy hdays, civilFromDays_eq hy hdoy hdays hmin hmax]

theorem dateAt_valid (days : Int) : (dateAt days).Valid := by
  obtain ⟨era, y, doy, hy, hdoy, hdays⟩ := exists_coordinates (days + 719468)
  rw [dateAt_eq era y doy hy hdoy hdays]
  exact dateOf_valid hdoy era

/-- The date and time of day are the given number of seconds after the epoch. -/
def Reads (unixSeconds : Int) (date : Date) (hour minute second : Int) : Prop :=
  ∃ days, date.DaysFromEpoch days ∧ (0 ≤ hour ∧ hour < 24) ∧ (0 ≤ minute ∧ minute < 60) ∧
    (0 ≤ second ∧ second < 60) ∧
    unixSeconds = days * 86400 + hour * 3600 + minute * 60 + second

/-- The second lies in a year from 0 to 9999. -/
def FourDigits (unixSeconds : Int) : Prop :=
  ∃ date hour minute second, Reads unixSeconds date hour minute second ∧
    0 ≤ date.year ∧ date.year ≤ 9999

/-- The number in decimal, with zeros in front up to a width that counts the sign. -/
def Writes (width : Nat) (n : Int) (chars : List Char) : Prop :=
  if n < 0 then ∃ digits, chars = '-' :: digits ∧ Decimal.Numeral (width - 1) n.natAbs digits
  else Decimal.Numeral width n.natAbs chars

/-- The text is `YYYY-MM-DDTHH:MM:SSZ` of the date and time of day. -/
def Shows (text : String) (date : Date) (hour minute second : Int) : Prop :=
  ∃ year month day hours minutes seconds, Writes 4 date.year year ∧ Writes 2 date.month month ∧
    Writes 2 date.day day ∧ Writes 2 hour hours ∧ Writes 2 minute minutes ∧
    Writes 2 second seconds ∧
    text.toList = year ++ '-' :: month ++ '-' :: day ++ 'T' :: hours ++ ':' :: minutes ++
      ':' :: seconds ++ ['Z']

theorem reads_dateAt (n : Int) : Reads n (dateAt (n / 86400)) (n % 86400 / 3600)
    (n % 86400 % 3600 / 60) (n % 86400 % 60) :=
  ⟨n / 86400, daysFromEpoch dateAt_valid (by decide) dateAt_succ _, by omega⟩

theorem Reads.date_eq {date : Date} {hour minute second : Int}
    (h : Reads n date hour minute second) : date = dateAt (n / 86400) := by
  obtain ⟨days, hdate, hhour, hminute, hsecond, hn⟩ := h
  obtain rfl : days = n / 86400 := by omega
  exact hdate.unique (daysFromEpoch dateAt_valid (by decide) dateAt_succ _)

theorem signed_writes {width : Nat} (hwidth : 1 < width) (n : Int) :
    Writes width n (signed width n).toList := by
  unfold Writes signed
  split
  · exact ⟨_, String.toList_append, Decimal.padded_numeral (Nat.sub_pos_of_lt hwidth) _⟩
  · exact Decimal.padded_numeral (by omega) _

theorem formatted_shows (date : Date) (hour minute second : Int) :
    Shows (formatted date hour minute second) date hour minute second := by
  have hyear := signed_writes (show 1 < 4 by decide) date.year
  have hfield := fun n => signed_writes (show 1 < 2 by decide) n
  refine ⟨_, _, _, _, _, _, hyear, hfield _, hfield _, hfield _, hfield _, hfield _, ?_⟩
  simp [formatted]

section Texts

variable (unix : Int64)

theorem civilFromDays_unix :
    civilFromDays (unix.toInt / 86400) = some (dateAt (unix.toInt / 86400)) := by
  have hmin := unix.le_toInt
  have hmax := unix.toInt_lt
  exact civilFromDays_dateAt (by omega) (by omega)

theorem formatRfc3339_unix :
    formatRfc3339 unix.toInt = some (formatted (dateAt (unix.toInt / 86400))
      (unix.toInt % 86400 / 3600) (unix.toInt % 86400 % 3600 / 60) (unix.toInt % 86400 % 60)) := by
  simp only [formatRfc3339, civilFromDays_unix]
  rfl

def stamp (unixSeconds : Int) : List Int :=
  (dateAt (unixSeconds / 86400)).fields ++ [unixSeconds % 86400 / 3600,
    unixSeconds % 86400 % 3600 / 60, unixSeconds % 86400 % 60]

def marks : List (Nat × Char) := [(4, '-'), (2, '-'), (2, 'T'), (2, ':'), (2, ':'), (2, 'Z')]

theorem stamp_lt {m : Int} (h : m < n) : stamp m < stamp n := by
  rw [stamp, stamp]
  rcases (Int.ediv_le_ediv (show (0 : Int) < 86400 by decide) h.le).lt_or_eq with hlt | heq
  · refine Positional.append_lt_append_of_lt ?_ (fields_lt dateAt_succ hlt) _ _
    rfl
  · rw [heq]
    refine List.append_left_lt ?_
    -- on one day the first of hour, minute and second that differ decides
    rcases (show m % 86400 / 3600 ≤ n % 86400 / 3600 by omega).lt_or_eq with hhour | hhour
    · exact .rel hhour
    rw [hhour]
    refine .cons ?_
    rcases (show m % 86400 % 3600 / 60 ≤ n % 86400 % 3600 / 60 by omega).lt_or_eq with hmin | hmin
    · exact .rel hmin
    rw [hmin]
    exact .cons (.rel (by omega))

theorem stamp_fit (h : FourDigits n) : Positional.Fit 10 marks (stamp n) := by
  obtain ⟨date, hour, minute, second, hreads, hyear⟩ := h
  rw [hreads.date_eq] at hyear
  obtain ⟨hmonth, hmonth', hday, hday'⟩ := dateAt_valid (n / 86400)
  have hlength : (dateAt (n / 86400)).length ≤ 31 := by
    unfold Date.length monthLength
    split <;> split <;> decide
  simp [Positional.Fit, marks, stamp, Date.fields]
  omega

theorem toList_signed {width : Nat} (h : 0 ≤ n ∧ n < 10 ^ (width + 1)) :
    (signed (width + 1) n).toList = Positional.written 10 Nat.digitChar (width + 1) n.natAbs := by
  rw [signed, if_neg (by omega), Decimal.toList_padded]
  have hlt : (n.natAbs : Int) < 10 ^ (width + 1) := by rw [Int.natAbs_of_nonneg h.1]; exact h.2
  exact_mod_cast hlt

/-- The text of a second of a year of four digits is its stamp in fields. -/
theorem toList_formatted (h : Positional.Fit 10 marks (stamp n)) :
    (formatted (dateAt (n / 86400)) (n % 86400 / 3600) (n % 86400 % 3600 / 60)
      (n % 86400 % 60)).toList = Positional.separated 10 Nat.digitChar marks (stamp n) := by
  obtain _ | ⟨hyear, _ | ⟨hmonth, _ | ⟨hday, _ | ⟨hhour, _ | ⟨hminute, _ | ⟨hsecond, -⟩⟩⟩⟩⟩⟩ := h
  simp only [formatted, String.toList_append, toList_signed hyear, toList_signed hmonth,
    toList_signed hday, toList_signed hhour, toList_signed hminute, toList_signed hsecond]
  simp [Positional.separated, marks, stamp, Date.fields]

theorem digitChar_lt : ∀ i j, i < j → j < 10 → Nat.digitChar i < Nat.digitChar j := by
  intro i j hij hj
  have hall : ∀ j : Fin 10, ∀ i : Fin 10, i < j → Nat.digitChar i.val < Nat.digitChar j.val := by
    decide
  exact hall ⟨j, hj⟩ ⟨i, hij.trans hj⟩ hij

theorem ascii_separated {marks : List (Nat × Char)} (hmarks : ∀ mark ∈ marks, mark.2.toNat < 128)
    (ns : List Int) : ∀ c ∈ Positional.separated 10 Nat.digitChar marks ns, c.toNat < 128 := by
  have hdigits : ∀ k < 10, (Nat.digitChar k).toNat < 128 := by decide
  fun_induction Positional.separated 10 Nat.digitChar marks ns with
  | case1 width mark marks n ns ih =>
    intro c hc
    rcases List.mem_append.mp hc with hc | hc
    · rw [Positional.written_eq_map] at hc
      obtain ⟨index, -, rfl⟩ := List.mem_map.mp hc
      exact hdigits _ (Nat.mod_lt _ (by decide))
    · rcases List.mem_cons.mp hc with rfl | hc
      · exact hmarks _ List.mem_cons_self
      · exact ih (fun mark h => hmarks mark (List.mem_cons_of_mem _ h)) c hc
  | case2 => exact fun c hc => absurd hc List.not_mem_nil

end Texts

/-- Every second is written as its date and time of day; four-digit years have twenty bytes, in the
order of the seconds. -/
theorem timestamps_exact :
    (∀ unix : Int64, ∃ date hour minute second text, Reads unix.toInt date hour minute second ∧
      formatRfc3339 unix.toInt = some text ∧ Shows text date hour minute second) ∧
    ∀ unix unix' : Int64, FourDigits unix.toInt → FourDigits unix'.toInt →
      ∃ text text', formatRfc3339 unix.toInt = some text ∧ formatRfc3339 unix'.toInt = some text' ∧
        text.utf8ByteSize = 20 ∧
        (Encodings.utf8Bytes text.toList < Encodings.utf8Bytes text'.toList ↔
          unix.toInt < unix'.toInt) := by
  refine ⟨fun unix => ?_, fun unix unix' hunix hunix' => ?_⟩
  · exact ⟨_, _, _, _, _, reads_dateAt _, formatRfc3339_unix unix, formatted_shows _ _ _ _⟩
  · have hfit := stamp_fit hunix
    have hfit' := stamp_fit hunix'
    refine ⟨_, _, formatRfc3339_unix unix, formatRfc3339_unix unix', ?_, ?_⟩
    · rw [← Encodings.length_utf8Bytes, toList_formatted hfit]
      have hascii : Encodings.utf8Bytes _ = _ :=
        Numbers.encoded_ascii (E := Encodings.utf8Encoding)
          (ascii_separated (show ∀ mark ∈ marks, mark.2.toNat < 128 by decide) (stamp unix.toInt))
      rw [hascii, List.length_map]
      rfl
    · rw [Encodings.utf8Bytes_strictMono.lt_iff_lt, toList_formatted hfit, toList_formatted hfit']
      have hmono : ∀ {m n : Int}, Positional.Fit 10 marks (stamp m) →
          Positional.Fit 10 marks (stamp n) → m < n →
          Positional.separated 10 Nat.digitChar marks (stamp m) <
            Positional.separated 10 Nat.digitChar marks (stamp n) :=
        fun hm hn h => Positional.separated_lt (by decide) digitChar_lt hm hn (stamp_lt h)
      refine ⟨fun h => ?_, hmono hfit hfit'⟩
      rcases lt_trichotomy unix.toInt unix'.toInt with hlt | heq | hgt
      · exact hlt
      · exact absurd (heq ▸ h) (lt_irrefl _)
      · exact absurd h (lt_asymm (hmono hfit' hfit hgt))

end Timestamps
end EventStore
