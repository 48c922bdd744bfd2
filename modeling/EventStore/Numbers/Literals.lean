import EventStore.Numbers.Scanning

/-!
What the parts of a literal come to, with the exponent held below a cap. In a document of fewer
than 2^29 bytes the cap changes no refusal and no text: past it a number other than zero is out
of range, and zero has no use for its exponent.
-/
namespace EventStore.Numbers

open Encodings JsonNumbers JsonGrammar

section Split

variable {α : Type} {E : AsciiEncoding α}

def digitUnits (E : AsciiEncoding α) (digits : List Digit) : List α :=
  digits.map fun d => ascii E (digitChar d)

theorem digitChar_ascii (d : Digit) : (digitChar d).toNat < 128 :=
  ascii_of_isNumberChar (isNumberChar_digits (List.mem_map_of_mem (List.mem_singleton_self d)))

theorem is_digitChar {c : Char} (hc : c.isDigit = false) (d : Digit) :
    is E c (ascii E (digitChar d)) = false := by
  rw [is_ascii (digitChar_ascii d)]
  refine decide_eq_false ?_
  rintro rfl
  rw [isDigit_digitChar] at hc
  cases hc

theorem is_zero_digitChar (d : Digit) : is E '0' (ascii E (digitChar d)) = decide (d = 0) := by
  rw [is_ascii (digitChar_ascii d)]
  revert d
  decide

theorem encoded_digits (digits : List Digit) :
    encoded E (digits.map digitChar) = digitUnits E digits := by
  rw [encoded_ascii, digitUnits, List.map_map]
  · rfl
  · intro c hc
    exact ascii_of_isNumberChar (isNumberChar_digits hc)

theorem length_digitUnits (digits : List Digit) : (digitUnits E digits).length = digits.length :=
  List.length_map _

theorem digitUnits_append (digits more : List Digit) :
    digitUnits E (digits ++ more) = digitUnits E digits ++ digitUnits E more :=
  List.map_append

def exponentUnits (E : AsciiEncoding α) (e : Exponent) : List α :=
  (signText e.sign).map (ascii E) ++ digitUnits E e.digits

def fractionUnits (E : AsciiEncoding α) (digits : List Digit) : List α :=
  if digits = [] then [] else ascii E '.' :: digitUnits E digits

def exponentPart (E : AsciiEncoding α) : Option Exponent → List α
  | none => []
  | some e => ascii E (if e.upper then 'E' else 'e') :: exponentUnits E e

theorem encoded_text (l : Literal) :
    encoded E l.text = (if l.negative then [ascii E '-'] else []) ++
      (digitUnits E l.integer ++ fractionUnits E l.fraction ++ exponentPart E l.exponent) := by
  have hsign : encoded E (if l.negative then ['-'] else []) =
      if l.negative then [ascii E '-'] else [] := by
    cases l.negative with
    | true => exact encoded_ascii_cons (by decide) _
    | false => rfl
  have hfraction : encoded E (if l.fraction = [] then [] else '.' :: l.fraction.map digitChar) =
      fractionUnits E l.fraction := by
    unfold fractionUnits
    split
    · rfl
    · rw [encoded_ascii_cons (by decide), encoded_digits]
  have hexponent : encoded E ((l.exponent.map Exponent.text).getD []) =
      exponentPart E l.exponent := by
    cases l.exponent with
    | none => rfl
    | some e =>
      have hmark : (if e.upper then 'E' else 'e').toNat < 128 := by cases e.upper <;> decide
      have hsigned : ∀ c ∈ signText e.sign, c.toNat < 128 := fun c hc =>
        ascii_of_isNumberChar (isNumberChar_exponent (e := e) (by simp [Exponent.text, hc]))
      rw [Option.map_some, Option.getD_some, Exponent.text, encoded_ascii_cons hmark,
        encoded_append, encoded_ascii hsigned, encoded_digits]
      rfl
  rw [Literal.text, encoded_append, encoded_append, encoded_append, hsign, hfraction, hexponent,
    encoded_digits]
  simp

theorem isExponentMark_digitUnits {digits : List Digit} {a : α} (ha : a ∈ digitUnits E digits) :
    isExponentMark E a = false := by
  obtain ⟨d, -, rfl⟩ := List.mem_map.mp ha
  rw [isExponentMark, is_digitChar (by decide), is_digitChar (by decide)]
  rfl

theorem isExponentMark_fractionUnits {digits : List Digit} {a : α}
    (ha : a ∈ fractionUnits E digits) : isExponentMark E a = false := by
  unfold fractionUnits at ha
  split at ha
  · cases ha
  · rcases List.mem_cons.mp ha with rfl | ha
    · simp [isExponentMark, is_ascii]
    · exact isExponentMark_digitUnits ha

theorem head_negative (l : Literal) :
    (encoded E l.text).head?.any (is E '-') = l.negative := by
  obtain ⟨d, digits, hinteger⟩ := List.exists_cons_of_ne_nil l.integer_ne
  rw [encoded_text, hinteger]
  cases l.negative with
  | true => simp [is_ascii]
  | false => simp [digitUnits, is_digitChar]

theorem split_exponentPart (e : Option Exponent) :
    (exponentPart E e).takeWhile (fun a => !isExponentMark E a) = [] ∧
      (exponentPart E e).dropWhile (fun a => !isExponentMark E a) = exponentPart E e := by
  cases e with
  | none => exact ⟨rfl, rfl⟩
  | some e =>
    have hmark : isExponentMark E (ascii E (if e.upper then 'E' else 'e')) = true := by
      cases e.upper <;> simp [isExponentMark, is_ascii]
    rw [exponentPart, List.takeWhile_cons_of_neg (by simp [hmark]),
      List.dropWhile_cons_of_neg (by simp [hmark])]
    exact ⟨rfl, rfl⟩

theorem split_fractionUnits (digits : List Digit) :
    (fractionUnits E digits).takeWhile (fun a => !is E '.' a) = [] ∧
      ((fractionUnits E digits).dropWhile fun a => !is E '.' a).drop 1 = digitUnits E digits := by
  unfold fractionUnits
  split
  · rename_i h
    rw [h]
    exact ⟨rfl, rfl⟩
  · rw [List.takeWhile_cons_of_neg (by simp [is_ascii]),
      List.dropWhile_cons_of_neg (by simp [is_ascii])]
    exact ⟨rfl, rfl⟩

theorem splitLiteral_text (l : Literal) :
    splitLiteral E (encoded E l.text) =
      { negative := l.negative
        integer := digitUnits E l.integer
        fraction := digitUnits E l.fraction
        exponent := l.exponent.map (exponentUnits E) } := by
  have hunsigned : (if l.negative = true then (encoded E l.text).drop 1 else encoded E l.text) =
      digitUnits E l.integer ++ fractionUnits E l.fraction ++ exponentPart E l.exponent := by
    rw [encoded_text]
    cases l.negative <;> rfl
  have hmantissa : ∀ a ∈ digitUnits E l.integer ++ fractionUnits E l.fraction,
      (!isExponentMark E a) = true := by
    intro a ha
    rw [Bool.not_eq_true']
    rcases List.mem_append.mp ha with ha | ha
    · exact isExponentMark_digitUnits ha
    · exact isExponentMark_fractionUnits ha
  have hinteger : ∀ a ∈ digitUnits E l.integer, (!is E '.' a) = true := by
    intro a ha
    obtain ⟨d, -, rfl⟩ := List.mem_map.mp ha
    rw [is_digitChar (by decide)]
    rfl
  have hexponent : (exponentPart E l.exponent).tail? = l.exponent.map (exponentUnits E) := by
    cases l.exponent <;> rfl
  simp only [splitLiteral, head_negative, hunsigned, List.takeWhile_append_of_pos hmantissa,
    List.dropWhile_append_of_pos hmantissa, (split_exponentPart l.exponent).1,
    (split_exponentPart l.exponent).2, List.append_nil, List.takeWhile_append_of_pos hinteger,
    List.dropWhile_append_of_pos hinteger, (split_fractionUnits l.fraction).1,
    (split_fractionUnits l.fraction).2, hexponent]

theorem any_isExponentMark (l : Literal) :
    (encoded E l.text).any (isExponentMark E) = l.exponent.isSome := by
  have hexponent : (exponentPart E l.exponent).any (isExponentMark E) = l.exponent.isSome := by
    cases l.exponent with
    | none => rfl
    | some e =>
      have hmark : isExponentMark E (ascii E (if e.upper then 'E' else 'e')) = true := by
        cases e.upper <;> simp [isExponentMark, is_ascii]
      simp [exponentPart, hmark]
  have hinteger : (digitUnits E l.integer).any (isExponentMark E) = false :=
    List.any_eq_false.mpr fun a ha => by simp [isExponentMark_digitUnits ha]
  have hfraction : (fractionUnits E l.fraction).any (isExponentMark E) = false :=
    List.any_eq_false.mpr fun a ha => by simp [isExponentMark_fractionUnits ha]
  have hsign :
      (if l.negative = true then [ascii E '-'] else []).any (isExponentMark E) = false := by
    cases l.negative <;> simp [isExponentMark, is_ascii]
  rw [encoded_text, List.any_append, List.any_append, List.any_append, hexponent, hinteger,
    hfraction, hsign]
  rfl

end Split

section Capped

def capped (exponent : Int) : Int := max (-exponentCap) (min exponent exponentCap)

def cappedPoint (l : Literal) : Int := l.integer.length + capped l.power

def cappedScale (l : Literal) : Int := max (l.fraction.length - capped l.power) 0

def cappedDigits (l : Literal) : Int :=
  if l.isZero then 0 else max (cappedPoint l - l.firstSignificant) 0

def storable (l : Literal) : Bool :=
  l.plain.fraction.length ≤ 16383 && l.plain.significant ≤ 131072

theorem length_digits_le (l : Literal) : l.integer.length + l.fraction.length ≤ l.text.length := by
  rw [Literal.text]
  by_cases hfraction : l.fraction = []
  · simp [hfraction]
    omega
  · simp [hfraction]
    omega

variable {l : Literal}

theorem capped_iff (hlength : l.text.length < 2 ^ 29) :
    (maxScale < cappedScale l ∨ maxIntegerDigits < cappedDigits l) ↔ storable l = false := by
  have hdigits := length_digits_le l
  have hfirst := l.firstSignificant_le
  rw [Literal.length_digits] at hfirst
  rw [storable, Literal.length_plain_fraction, Literal.plain_significant, Bool.and_eq_false_iff,
    decide_eq_false_iff_not, decide_eq_false_iff_not]
  unfold cappedDigits cappedScale cappedPoint capped maxScale maxIntegerDigits exponentCap
  unfold Literal.scale Literal.point
  split <;> omega

theorem capped_of_storable (hlength : l.text.length < 2 ^ 29) (h : storable l = true) :
    cappedScale l = l.scale ∧ cappedDigits l = l.plain.significant ∧
      (0 < l.scale → cappedPoint l = l.point) ∧
      (l.plain.significant ≠ 0 → cappedPoint l = l.point) := by
  have hdigits := length_digits_le l
  have hfirst := l.firstSignificant_le
  rw [Literal.length_digits] at hfirst
  rw [storable, Literal.length_plain_fraction, Literal.plain_significant, Bool.and_eq_true,
    decide_eq_true_eq, decide_eq_true_eq] at h
  rw [Literal.plain_significant]
  unfold cappedDigits cappedScale cappedPoint capped exponentCap
  unfold Literal.scale Literal.point at *
  split
  · rename_i hzero
    rw [if_pos hzero] at h
    omega
  · rename_i hzero
    rw [if_neg hzero] at h
    omega

end Capped

section Written

variable {α : Type} {E : AsciiEncoding α}

theorem unitsFrom_digitAt (l : Literal) (start stop : Int) :
    unitsFrom (fun index => ascii E (digitChar (l.digitAt index))) start stop =
      digitUnits E (l.digitsFrom start stop) := by
  rw [unitsFrom, digitUnits, Literal.digitsFrom, List.map_map]
  rfl

theorem digitUnits_plain_integer (l : Literal) :
    digitUnits E l.plain.integer =
      if l.plain.significant = 0 then [ascii E '0']
      else digitUnits E (l.digitsFrom l.firstSignificant l.point) := by
  rw [Literal.plain_integer]
  split <;> rfl

theorem fractionUnits_plain (l : Literal) :
    fractionUnits E l.plain.fraction =
      if l.scale = 0 then []
      else ascii E '.' :: digitUnits E (l.digitsFrom l.point (l.point + l.scale)) := by
  have hfraction : l.plain.fraction = [] ↔ l.scale = 0 := by
    rw [← Literal.length_plain_fraction, List.length_eq_zero_iff]
  unfold fractionUnits
  simp only [hfraction]
  rw [Literal.plain_fraction]

/-- The plain form in units: what is written for a number. -/
theorem encoded_plain (l : Literal) :
    encoded E l.plain.text =
      (if l.negative && !l.isZero then [ascii E '-'] else []) ++
        ((if l.plain.significant = 0 then [ascii E '0']
          else digitUnits E (l.digitsFrom l.firstSignificant l.point)) ++
        (if l.scale = 0 then []
          else ascii E '.' :: digitUnits E (l.digitsFrom l.point (l.point + l.scale)))) := by
  rw [encoded_text, digitUnits_plain_integer, fractionUnits_plain,
    show exponentPart E l.plain.exponent = [] from rfl, List.append_nil]
  rfl

theorem length_plain_integer (l : Literal) :
    l.plain.integer.length = max l.plain.significant 1 := by
  have hne := List.length_pos_iff.mpr l.plain.integer_ne
  rw [Literal.significant]
  split
  · rename_i h
    rw [h]
    rfl
  · omega

theorem length_encoded_plain (l : Literal) :
    (encoded E l.plain.text).length = max l.plain.significant 1 +
      (if l.negative && !l.isZero then 1 else 0) + (if 0 < l.scale then 1 + l.scale else 0) := by
  have hsign : (if l.plain.negative = true then [ascii E '-'] else []).length =
      if l.negative && !l.isZero then 1 else 0 := by
    change (if (l.negative && !l.isZero) = true then [ascii E '-'] else []).length = _
    split <;> rfl
  have hfraction : (fractionUnits E l.plain.fraction).length =
      if 0 < l.scale then 1 + l.scale else 0 := by
    have hlength := l.length_plain_fraction
    unfold fractionUnits
    split
    · rename_i h
      rw [h] at hlength
      rw [← hlength]
      rfl
    · rename_i h
      rw [if_pos (by rw [← hlength]; exact List.length_pos_iff.mpr h), List.length_cons,
        length_digitUnits, hlength]
      omega
  rw [encoded_text, show exponentPart E l.plain.exponent = [] from rfl, List.append_nil,
    List.length_append, List.length_append, hsign, hfraction, length_digitUnits,
    length_plain_integer]
  omega

end Written

section Exponents

variable {α : Type} {E : AsciiEncoding α}

theorem min_add_digit (n : Nat) (d : Digit) :
    min (min (n : Int) exponentCap * 10 + (d.val : Int)) exponentCap =
      min ((10 * n + d.val : Nat) : Int) exponentCap := by
  unfold exponentCap
  omega

theorem foldl_min (digits : List Digit) (n : Nat) :
    digits.foldl (fun (exponent : Int) d => min (exponent * 10 + (d.val : Int)) exponentCap)
        (min (n : Int) exponentCap) =
      min ((n * 10 ^ digits.length + digitsValue digits : Nat) : Int) exponentCap := by
  induction digits generalizing n with
  | nil => simp [digitsValue]
  | cons d digits ih =>
    rw [List.foldl_cons, min_add_digit, ih, digitsValue_cons, List.length_cons]
    congr 2
    ring

theorem exponentUnits_head (e : Exponent) :
    (exponentUnits E e).head?.any (is E '-') = decide (e.sign = some true) ∧
      (exponentUnits E e).head?.any (is E '+') = decide (e.sign = some false) ∧
      (if e.sign.isSome then (exponentUnits E e).drop 1 else exponentUnits E e) =
        digitUnits E e.digits := by
  obtain ⟨d, digits, hdigits⟩ := List.exists_cons_of_ne_nil e.digits_ne
  unfold exponentUnits
  cases hsign : e.sign with
  | none => simp [signText, hdigits, digitUnits, is_digitChar]
  | some negative => cases negative <;> simp [signText, is_ascii]

theorem capped_value (e : Exponent) :
    (if e.sign = some true then -min (digitsValue e.digits : Int) exponentCap
      else min (digitsValue e.digits : Int) exponentCap) = capped e.value := by
  unfold Exponent.value capped exponentCap
  split <;> omega

end Exponents

end EventStore.Numbers
