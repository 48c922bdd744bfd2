import EventStore.Lib.Encodings

/-!
Numbers as JSON writes them. A literal denotes a rational number; its plain form denotes the same
one without an exponent: the point moves, with zeros where it leaves the written digits.
-/
namespace JsonNumbers

abbrev Digit := Fin 10

def digitsValue (digits : List Digit) : Nat :=
  digits.foldl (fun (n : Nat) (d : Digit) => 10 * n + d.val) 0

theorem foldl_digits (digits : List Digit) (n : Nat) :
    digits.foldl (fun (n : Nat) (d : Digit) => 10 * n + d.val) n =
      n * 10 ^ digits.length + digitsValue digits := by
  induction digits generalizing n with
  | nil => simp [digitsValue]
  | cons d digits ih =>
    rw [digitsValue, List.foldl_cons, List.foldl_cons, ih, ih (10 * 0 + d.val), List.length_cons,
      pow_succ]
    ring

theorem digitsValue_append (digits more : List Digit) :
    digitsValue (digits ++ more) = digitsValue digits * 10 ^ more.length + digitsValue more := by
  rw [digitsValue, List.foldl_append, foldl_digits]
  rfl

theorem digitsValue_cons (d : Digit) (digits : List Digit) :
    digitsValue (d :: digits) = d * 10 ^ digits.length + digitsValue digits := by
  rw [digitsValue, List.foldl_cons, foldl_digits, Nat.mul_zero, Nat.zero_add]

theorem digitsValue_replicate (n : Nat) : digitsValue (List.replicate n 0) = 0 := by
  induction n with
  | zero => rfl
  | succ n ih => rw [List.replicate_succ, digitsValue_cons, ih]; simp

theorem digitsValue_eq_zero {digits : List Digit} :
    digitsValue digits = 0 ↔ ∀ d ∈ digits, d = 0 := by
  induction digits with
  | nil => simp [digitsValue]
  | cons d digits ih =>
    have hd : d.val = 0 ↔ d = 0 := Fin.val_eq_zero_iff
    rw [digitsValue_cons, List.forall_mem_cons, ← ih, ← hd]
    simp

/-- Digits without their leading zeros, of which at least one is left. -/
def trimmed (digits : List Digit) : List Digit :=
  match digits.dropWhile (· = 0) with
  | [] => [0]
  | d :: rest => d :: rest

theorem dropWhile_zero_cases (digits : List Digit) :
    (digits.dropWhile (· = 0) = [] ∧ ∀ d ∈ digits, d = 0) ∨
      ∃ d rest, digits.dropWhile (· = 0) = d :: rest ∧ d ≠ 0 := by
  induction digits with
  | nil => simp
  | cons d digits ih =>
    by_cases hd : d = 0
    · rcases ih with ⟨hnil, hall⟩ | ⟨e, rest, hcons, he⟩
      · exact .inl ⟨by simp [hd, hnil], by simpa [hd] using hall⟩
      · exact .inr ⟨e, rest, by simp [hd, hcons], he⟩
    · exact .inr ⟨d, digits, by simp [hd], hd⟩

theorem trimmed_ne_nil (digits : List Digit) : trimmed digits ≠ [] := by
  unfold trimmed
  split <;> simp

theorem trimmed_head (digits : List Digit) (h : (trimmed digits).head? = some 0) :
    trimmed digits = [0] := by
  rcases dropWhile_zero_cases digits with ⟨hnil, -⟩ | ⟨d, rest, hcons, hd⟩
  · simp [trimmed, hnil]
  · rw [trimmed, hcons] at h
    exact absurd (Option.some.inj h) hd

theorem digitsValue_dropWhile (digits : List Digit) :
    digitsValue (digits.dropWhile (· = 0)) = digitsValue digits := by
  induction digits with
  | nil => rfl
  | cons d digits ih =>
    by_cases hd : d = 0
    · rw [List.dropWhile_cons_of_pos (by simpa using hd), ih, digitsValue_cons, hd]
      simp
    · rw [List.dropWhile_cons_of_neg (by simpa using hd)]

theorem digitsValue_trimmed (digits : List Digit) :
    digitsValue (trimmed digits) = digitsValue digits := by
  rw [← digitsValue_dropWhile digits, trimmed]
  split
  · rename_i h
    rw [h]
    rfl
  · rename_i h
    rw [h]

theorem trimmed_cases (digits : List Digit) :
    (digits.dropWhile (· = 0) = [] ∧ trimmed digits = [0]) ∨
      digits.dropWhile (· = 0) ≠ [] ∧ trimmed digits = digits.dropWhile (· = 0) ∧
        trimmed digits ≠ [0] := by
  rcases dropWhile_zero_cases digits with ⟨hnil, -⟩ | ⟨d, rest, hcons, hd⟩
  · exact .inl ⟨hnil, by rw [trimmed, hnil]⟩
  · refine .inr ⟨by simp [hcons], by rw [trimmed, hcons], ?_⟩
    rw [trimmed, hcons]
    simp [hd]

theorem trimmed_eq_self {digits : List Digit} (hne : digits ≠ [])
    (hhead : digits.head? = some 0 → digits = [0]) : trimmed digits = digits := by
  cases digits with
  | nil => exact absurd rfl hne
  | cons d digits =>
    by_cases hd : d = 0
    · subst hd
      rw [hhead rfl]
      rfl
    · rw [trimmed, List.dropWhile_cons_of_neg (by simpa using hd)]

structure Exponent where
  upper : Bool
  sign : Option Bool
  digits : List Digit
  digits_ne : digits ≠ []

def Exponent.value (e : Exponent) : Int :=
  if e.sign = some true then -digitsValue e.digits else digitsValue e.digits

def NoLeadingZero (digits : List Digit) : Prop := digits.head? = some 0 → digits = [0]

instance instDecidableNoLeadingZero (digits : List Digit) : Decidable (NoLeadingZero digits) :=
  inferInstanceAs (Decidable (_ → _))

/-- A number literal. Without fraction digits it has no decimal point. -/
@[ext] structure Literal where
  negative : Bool
  integer : List Digit
  fraction : List Digit
  exponent : Option Exponent
  integer_ne : integer ≠ []
  integer_head : integer.head? = some 0 → integer = [0]

def digitChar (d : Digit) : Char := Char.ofNat (48 + d)

def signText : Option Bool → List Char
  | none => []
  | some true => ['-']
  | some false => ['+']

def Exponent.text (e : Exponent) : List Char :=
  (if e.upper then 'E' else 'e') :: (signText e.sign ++ e.digits.map digitChar)

namespace Literal

def text (l : Literal) : List Char :=
  (if l.negative then ['-'] else []) ++ l.integer.map digitChar ++
    (if l.fraction = [] then [] else '.' :: l.fraction.map digitChar) ++
    (l.exponent.map Exponent.text).getD []

def digits (l : Literal) : List Digit := l.integer ++ l.fraction

def power (l : Literal) : Int := (l.exponent.map Exponent.value).getD 0

def value (l : Literal) : ℚ :=
  (if l.negative then -1 else 1) * digitsValue l.digits * 10 ^ (l.power - l.fraction.length)

def isZero (l : Literal) : Bool := l.digits.all (· = 0)

/-- The fraction digits a literal implies: its own, less the exponent. -/
def scale (l : Literal) : Nat := (l.fraction.length - l.power).toNat

def point (l : Literal) : Int := l.integer.length + l.power

/-- The digits with zeros up to the point, on the side it lies. -/
def shifted (l : Literal) : List Digit :=
  List.replicate (-l.point).toNat 0 ++ l.digits ++
    List.replicate (l.point - l.digits.length).toNat 0

/-- The same number without an exponent and without a sign on zero. -/
def plain (l : Literal) : Literal where
  negative := l.negative && !l.isZero
  integer := trimmed (l.shifted.take l.point.toNat)
  fraction := l.shifted.drop l.point.toNat
  exponent := none
  integer_ne := trimmed_ne_nil _
  integer_head := trimmed_head _

def significant (l : Literal) : Nat := if l.integer = [0] then 0 else l.integer.length

theorem length_shifted (l : Literal) :
    l.shifted.length = (-l.point).toNat + l.digits.length + (l.point - l.digits.length).toNat := by
  simp [shifted, Nat.add_assoc]

theorem length_digits (l : Literal) : l.digits.length = l.integer.length + l.fraction.length :=
  List.length_append

theorem length_plain_fraction (l : Literal) : l.plain.fraction.length = l.scale := by
  rw [plain, List.length_drop, length_shifted, length_digits, scale, point]
  omega

theorem isZero_iff {l : Literal} : l.isZero = true ↔ digitsValue l.digits = 0 := by
  rw [digitsValue_eq_zero, isZero]
  simp

theorem value_eq_zero {l : Literal} : l.value = 0 ↔ l.isZero = true := by
  rw [isZero_iff, value]
  have hpower : (10 : ℚ) ^ (l.power - l.fraction.length) ≠ 0 := zpow_ne_zero _ (by norm_num)
  cases l.negative <;> simp [hpower]

/-- The digits of the plain form write the shifted ones. -/
theorem digitsValue_plain (l : Literal) :
    digitsValue l.plain.digits = digitsValue l.digits *
      10 ^ (l.point - l.digits.length).toNat := by
  rw [digits, digitsValue_append]
  simp only [plain]
  rw [digitsValue_trimmed, ← digitsValue_append, List.take_append_drop, shifted,
    digitsValue_append, digitsValue_append, digitsValue_replicate, digitsValue_replicate,
    List.length_replicate]
  ring

theorem plain_isZero (l : Literal) : l.plain.isZero = l.isZero := by
  rw [Bool.eq_iff_iff, isZero_iff, isZero_iff, digitsValue_plain]
  simp

/-- The plain form denotes the same number. -/
theorem value_plain (l : Literal) : l.plain.value = l.value := by
  by_cases hzero : l.isZero = true
  · rw [value_eq_zero.mpr hzero, value_eq_zero.mpr (l.plain_isZero ▸ hzero)]
  have hsign : l.plain.negative = l.negative := by simp [plain, hzero]
  have hpower : l.plain.power = 0 := rfl
  rw [value, value, hsign, hpower, length_plain_fraction, digitsValue_plain, mul_assoc, mul_assoc,
    Nat.cast_mul, Nat.cast_pow, mul_assoc]
  congr 2
  rw [Nat.cast_ofNat, ← zpow_natCast, ← zpow_add₀ (by norm_num)]
  congr 1
  rw [length_digits, scale, point]
  omega

theorem plain_negative {l : Literal} (h : l.plain.negative = true) : l.plain.value ≠ 0 := by
  rw [Ne, value_eq_zero, plain_isZero]
  simp only [plain, Bool.and_eq_true, Bool.not_eq_true'] at h
  simp [h.2]

theorem plain_eq_self {l : Literal} (hexponent : l.exponent = none)
    (hsign : l.negative = true → l.isZero = false) : l.plain = l := by
  have hpoint : l.point = l.integer.length := by simp [point, power, hexponent]
  have hshifted : l.shifted = l.integer ++ l.fraction := by
    rw [shifted, hpoint, length_digits, digits,
      show (-(l.integer.length : Int)).toNat = 0 by omega,
      show ((l.integer.length : Int) - (l.integer.length + l.fraction.length : Nat)).toNat = 0 by
        omega]
    simp
  ext : 1
  · cases hnegative : l.negative with
    | false => simp [plain, hnegative]
    | true => simp [plain, hnegative, hsign hnegative]
  · simp only [plain]
    rw [hshifted, hpoint, Int.toNat_natCast, List.take_left]
    exact trimmed_eq_self l.integer_ne l.integer_head
  · simp only [plain]
    rw [hshifted, hpoint, Int.toNat_natCast, List.drop_left]
  · exact hexponent.symm

theorem plain_plain (l : Literal) : l.plain.plain = l.plain := by
  refine plain_eq_self rfl fun hnegative => ?_
  have hvalue := plain_negative hnegative
  rw [Ne, value_eq_zero, Bool.not_eq_true] at hvalue
  exact hvalue

/-- The place of the first digit other than zero, or the number of digits. -/
def firstSignificant (l : Literal) : Nat := l.digits.findIdx (· ≠ 0)

theorem firstSignificant_le (l : Literal) : l.firstSignificant ≤ l.digits.length :=
  List.findIdx_le_length

theorem isZero_iff_firstSignificant {l : Literal} :
    l.isZero = true ↔ l.firstSignificant = l.digits.length := by
  rw [firstSignificant, List.findIdx_eq_length]
  simp [isZero]

/-- The digit at a place, with zeros on both sides of the written ones. -/
def digitAt (l : Literal) (index : Int) : Digit :=
  if index < 0 then 0 else l.digits[index.toNat]?.getD 0

def digitsFrom (l : Literal) (start stop : Int) : List Digit :=
  (List.range (stop - start).toNat).map fun k : Nat => l.digitAt (start + k)

theorem getElem?_shifted (l : Literal) {j : Nat} (hj : j < l.shifted.length) :
    l.shifted[j]? = some (l.digitAt (j - (-l.point).toNat)) := by
  rw [length_shifted] at hj
  rw [shifted, List.append_assoc, List.getElem?_append, List.length_replicate]
  split
  · rename_i h
    rw [List.getElem?_replicate_of_lt h, digitAt, if_pos (by omega)]
  rename_i h
  rw [digitAt, if_neg (by omega),
    show ((j : Int) - (-l.point).toNat).toNat = j - (-l.point).toNat by omega, List.getElem?_append]
  split
  · rename_i hlt
    rw [List.getElem?_eq_getElem hlt]
    rfl
  · rename_i hge
    rw [List.getElem?_replicate_of_lt (by omega), List.getElem?_eq_none (by omega)]
    rfl

theorem digitsFrom_eq (l : Literal) {start stop : Int} (hstart : 0 ≤ start + (-l.point).toNat)
    (hstop : stop + (-l.point).toNat ≤ l.shifted.length) :
    l.digitsFrom start stop =
      (l.shifted.drop (start + (-l.point).toNat).toNat).take (stop - start).toNat := by
  apply List.ext_getElem?
  intro k
  rw [digitsFrom, List.getElem?_map, List.getElem?_take]
  split
  · rename_i hk
    rw [List.getElem?_range hk, List.getElem?_drop, getElem?_shifted l (by omega), Option.map_some]
    congr 2
    omega
  · rename_i hk
    rw [List.getElem?_eq_none (by simpa using hk)]
    rfl

/-- The fraction of the plain form is the digits behind the point. -/
theorem plain_fraction (l : Literal) :
    l.plain.fraction = l.digitsFrom l.point (l.point + l.scale) := by
  have hlength : l.shifted.length = l.point.toNat + l.scale := by
    have := l.length_plain_fraction
    rw [plain, List.length_drop] at this
    rw [length_shifted, length_digits, scale, point] at *
    omega
  change l.shifted.drop l.point.toNat = _
  rw [digitsFrom_eq l (by omega) (by omega),
    show l.point + (-l.point).toNat = l.point.toNat by omega, Int.toNat_natCast,
    show l.point + l.scale - l.point = (l.scale : Int) by omega, Int.toNat_natCast,
    List.take_of_length_le (by rw [List.length_drop]; omega)]

theorem digitAt_of_lt (l : Literal) {k : Nat} (hk : k < l.firstSignificant) :
    l.digitAt k = 0 := by
  have hlength : k < l.digits.length := hk.trans_le l.firstSignificant_le
  have hzero := List.not_of_lt_findIdx hk
  rw [digitAt, if_neg (by omega), Int.toNat_natCast, List.getElem?_eq_getElem hlength]
  simpa using hzero

theorem digitAt_firstSignificant {l : Literal} (h : l.isZero = false) :
    l.digitAt l.firstSignificant ≠ 0 := by
  have hlength : l.firstSignificant < l.digits.length := by
    have hne : l.firstSignificant ≠ l.digits.length := by
      rw [Ne, ← isZero_iff_firstSignificant, h]
      exact Bool.false_ne_true
    exact lt_of_le_of_ne l.firstSignificant_le hne
  have hfound := List.findIdx_getElem (w := hlength)
  rw [digitAt, if_neg (by omega), Int.toNat_natCast, List.getElem?_eq_getElem hlength]
  simpa [firstSignificant] using hfound

theorem dropWhile_eq_drop {digits : List Digit} {n : Nat}
    (hzero : ∀ k < n, ∀ d, digits[k]? = some d → d = 0)
    (hnext : ∀ d, digits[n]? = some d → d ≠ 0) : digits.dropWhile (· = 0) = digits.drop n := by
  induction digits generalizing n with
  | nil => simp
  | cons d digits ih =>
    cases n with
    | zero =>
      have hd : d ≠ 0 := hnext d rfl
      rw [List.dropWhile_cons_of_neg (by simpa using hd), List.drop_zero]
    | succ n =>
      have hd : d = 0 := hzero 0 (by omega) d rfl
      rw [List.dropWhile_cons_of_pos (by simpa using hd), List.drop_succ_cons]
      exact ih (fun k hk => hzero (k + 1) (by omega)) hnext

theorem dropWhile_take_shifted (l : Literal) :
    (l.shifted.take l.point.toNat).dropWhile (· = 0) =
      if l.isZero = true then [] else l.digitsFrom l.firstSignificant l.point := by
  have hlength : l.point.toNat ≤ l.shifted.length := by
    rw [length_shifted]
    omega
  split
  · rename_i hzero
    rw [List.dropWhile_eq_nil_iff]
    intro d hd
    have hall : ∀ d ∈ l.shifted, d = 0 := by
      rw [← digitsValue_eq_zero, shifted, digitsValue_append, digitsValue_append,
        isZero_iff.mp hzero, digitsValue_replicate, digitsValue_replicate]
      simp
    simpa using hall d (List.mem_of_mem_take hd)
  rename_i hzero
  by_cases hpoint : l.point ≤ 0
  · rw [Int.toNat_of_nonpos hpoint, digitsFrom, Int.toNat_of_nonpos (by omega)]
    rfl
  have hget : ∀ k < l.point.toNat, l.shifted[k]? = some (l.digitAt k) := by
    intro k hk
    rw [getElem?_shifted l (by omega)]
    congr 2
    omega
  rw [dropWhile_eq_drop (n := l.firstSignificant) ?_ ?_,
    digitsFrom_eq l (by omega) (by omega), List.drop_take]
  · congr 2 <;> omega
  · intro k hk d hd
    rw [List.getElem?_take] at hd
    split at hd
    · rename_i hlt
      rw [hget k hlt] at hd
      rw [← Option.some.inj hd, digitAt_of_lt l hk]
    · cases hd
  · intro d hd
    rw [List.getElem?_take] at hd
    split at hd
    · rename_i hlt
      rw [hget _ hlt] at hd
      rw [← Option.some.inj hd]
      exact digitAt_firstSignificant (Bool.not_eq_true _ ▸ hzero)
    · cases hd

theorem length_digitsFrom (l : Literal) (start stop : Int) :
    (l.digitsFrom start stop).length = (stop - start).toNat := by
  simp [digitsFrom]

theorem plain_significant (l : Literal) :
    l.plain.significant =
      if l.isZero = true then 0 else (l.point - l.firstSignificant).toNat := by
  have hlength : ((l.shifted.take l.point.toNat).dropWhile (· = 0)).length =
      if l.isZero = true then 0 else (l.point - l.firstSignificant).toNat := by
    rw [dropWhile_take_shifted]
    split
    · rfl
    · exact length_digitsFrom l _ _
  rw [← hlength]
  change (if trimmed _ = [0] then 0 else (trimmed _).length) = _
  rcases trimmed_cases (l.shifted.take l.point.toNat) with ⟨hnil, hzero⟩ | ⟨-, hsame, hne⟩
  · rw [if_pos hzero, hnil]
    rfl
  · rw [if_neg hne, hsame]

/-- The integer part of the plain form is the digits before the point. -/
theorem plain_integer (l : Literal) :
    l.plain.integer =
      if l.plain.significant = 0 then [0] else l.digitsFrom l.firstSignificant l.point := by
  have hdigits := l.dropWhile_take_shifted
  change trimmed _ = if (if trimmed _ = [0] then 0 else (trimmed _).length) = 0 then [0] else _
  rcases trimmed_cases (l.shifted.take l.point.toNat) with ⟨-, hzero⟩ | ⟨hsome, hsame, hne⟩
  · rw [if_pos hzero, if_pos rfl, hzero]
  · have hlength : (trimmed (l.shifted.take l.point.toNat)).length ≠ 0 := by
      simp [trimmed_ne_nil]
    rw [if_neg hne, if_neg hlength, hsame, hdigits]
    rw [hdigits] at hsome
    split at hsome
    · exact absurd rfl hsome
    · rename_i hzero
      rw [if_neg hzero]

end Literal

end JsonNumbers
