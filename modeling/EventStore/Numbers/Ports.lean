import EventStore.Numbers.Literals

/-!
What Rust, Go and TypeScript make of one number literal: each refuses it exactly when its plain
form is out of range, and otherwise counts and writes the plain form.
-/
namespace EventStore.Numbers

open Encodings JsonNumbers JsonGrammar

section Digits

variable {α : Type} {E : AsciiEncoding α} (l : Literal)

theorem findIdx_digits (p : α → Bool) (hp : ∀ d, p (ascii E (digitChar d)) = decide (d ≠ 0)) :
    (digitUnits E l.integer ++ digitUnits E l.fraction).findIdx p = l.firstSignificant := by
  rw [← digitUnits_append, digitUnits, List.findIdx_map, Literal.firstSignificant]
  congr 1
  funext d
  exact hp d

theorem getElem?_digits (index : Int) (hindex : ¬index < 0) :
    (if index.toNat < (digitUnits E l.integer).length then
        (digitUnits E l.integer)[index.toNat]?.getD (ascii E '0')
      else (digitUnits E l.fraction)[index.toNat - (digitUnits E l.integer).length]?.getD
        (ascii E '0')) = ascii E (digitChar (l.digitAt index)) := by
  have hzero : ascii E '0' = ascii E (digitChar 0) := rfl
  rw [Literal.digitAt, if_neg hindex, Literal.digits, length_digitUnits, List.getElem?_append,
    digitUnits, digitUnits, List.getElem?_map, List.getElem?_map]
  split
  · rename_i h
    rw [List.getElem?_eq_getElem h]
    rfl
  · cases l.fraction[index.toNat - l.integer.length]? <;> rfl

end Digits

namespace Checked

variable {α β : Type}

@[simp] theorem done_bind (a : α) (f : α → Checked β) : (done a >>= f) = f a := rfl

@[simp] theorem pure_eq (a : α) : (pure a : Checked α) = done a := rfl

instance instLawfulMonad : LawfulMonad Checked :=
  .mk' _ (fun x => by cases x <;> rfl) (fun _ _ => rfl) (fun x _ _ => by cases x <;> rfl)

end Checked

theorem i64_eq {n : Int} (h : -2 ^ 63 ≤ n ∧ n < 2 ^ 63) : i64 n = .done n := if_pos h

def parsed (l : Literal) : Number :=
  ⟨l.negative, digitUnits bytes l.integer, digitUnits bytes l.fraction, cappedPoint l,
    cappedScale l⟩

section Rust

theorem exponentDigit_digitChar (d : Digit) :
    exponentDigit (ascii bytes (digitChar d)) = d.val := by
  revert d
  decide

theorem addDigit_min (n : Nat) (d : Digit) :
    addDigit (min (n : Int) exponentCap) (ascii bytes (digitChar d)) =
      .done (min ((10 * n + d.val : Nat) : Int) exponentCap) := by
  have hd := d.isLt
  rw [addDigit, i64_eq (by unfold exponentCap; omega), Checked.done_bind, exponentDigit_digitChar,
    i64_eq (by unfold exponentCap; omega), Checked.done_bind, min_add_digit]
  rfl

theorem foldlM_addDigit (digits : List Digit) (n : Nat) :
    (digitUnits bytes digits).foldlM addDigit (min (n : Int) exponentCap) =
      .done (min ((n * 10 ^ digits.length + digitsValue digits : Nat) : Int) exponentCap) := by
  induction digits generalizing n with
  | nil => simp [digitUnits, digitsValue]
  | cons d digits ih =>
    rw [digitUnits, List.map_cons, List.foldlM_cons, addDigit_min, Checked.done_bind]
    change (digitUnits bytes digits).foldlM addDigit _ = _
    rw [ih, digitsValue_cons, List.length_cons]
    congr 3
    ring

theorem parseExponent_units (e : Exponent) :
    parseExponent (exponentUnits bytes e) = .done (capped e.value) := by
  obtain ⟨hminus, hplus, hdigits⟩ := exponentUnits_head (E := bytes) e
  have hsigned : (decide (e.sign = some true) || decide (e.sign = some false)) = e.sign.isSome := by
    cases e.sign with
    | none => rfl
    | some negative => cases negative <;> rfl
  have hfold := foldlM_addDigit e.digits 0
  rw [Nat.zero_mul, Nat.zero_add, Nat.cast_zero, show min 0 exponentCap = 0 from rfl] at hfold
  simp only [parseExponent, hminus, hplus, hsigned, hdigits, hfold, Checked.done_bind]
  rw [← capped_value]
  split
  · rename_i h
    rw [decide_eq_true_eq] at h
    rw [if_pos h, i64_eq (by unfold exponentCap; omega)]
  · rename_i h
    rw [decide_eq_true_eq] at h
    rw [if_neg h]
    rfl

variable {l : Literal}

theorem exponentOf_units (e : Option Exponent) :
    exponentOf (e.map (exponentUnits bytes)) = .done (capped ((e.map Exponent.value).getD 0)) := by
  cases e with
  | none => rfl
  | some e => exact parseExponent_units e

theorem parse_text (hlength : l.text.length < 2 ^ 29) :
    Number.parse (encoded bytes l.text) = .done (parsed l) := by
  have hdigits := length_digits_le l
  have hcapped : -2 ^ 30 ≤ capped l.power ∧ capped l.power ≤ 2 ^ 30 := by
    unfold capped exponentCap
    omega
  have hexponent := exponentOf_units l.exponent
  simp only [Number.parse, splitLiteral_text, length_digitUnits, hexponent, Checked.done_bind]
  change i64 (l.integer.length + capped l.power) >>= _ = _
  rw [i64_eq (by omega), Checked.done_bind]
  change i64 (l.fraction.length - capped l.power) >>= _ = _
  rw [i64_eq (by omega), Checked.done_bind]
  rfl

theorem parsed_firstSignificant : (parsed l).firstSignificant = l.firstSignificant := by
  rw [Number.firstSignificant]
  exact congrArg Nat.cast (findIdx_digits l _ fun d => by rw [is_zero_digitChar]; simp)

theorem parsed_isZero : (parsed l).isZero = l.isZero := by
  rw [Bool.eq_iff_iff, Literal.isZero_iff_firstSignificant, Number.isZero, decide_eq_true_eq,
    parsed_firstSignificant, Number.digitCount, parsed, length_digitUnits, length_digitUnits,
    Literal.length_digits]
  exact Nat.cast_inj

theorem parsed_digit (index : Int) :
    (parsed l).digit index = ascii bytes (digitChar (l.digitAt index)) := by
  rw [Number.digit]
  split
  · rename_i h
    rw [Literal.digitAt, if_pos h]
    rfl
  · rename_i h
    exact getElem?_digits l index h

theorem parsed_integerDigits (hlength : l.text.length < 2 ^ 29) :
    (parsed l).integerDigits = .done (cappedDigits l) := by
  have hdigits := length_digits_le l
  have hfirst := l.firstSignificant_le
  rw [Literal.length_digits] at hfirst
  rw [Number.integerDigits, parsed_isZero, cappedDigits, parsed_firstSignificant]
  split
  · rfl
  · change i64 (cappedPoint l - l.firstSignificant) >>= _ = _
    rw [i64_eq (by unfold cappedPoint capped exponentCap; omega)]
    rfl

/-- Rust refuses a literal that is not storable. -/
theorem parsed_check (hlength : l.text.length < 2 ^ 29) (text : List UInt8) :
    (parsed l).check text =
      if storable l = true then .done () else .refused (outOfRange bytes text) := by
  have hcapped := capped_iff hlength
  rw [Number.check, parsed_integerDigits hlength, Checked.done_bind]
  change (if maxScale < cappedScale l then _ else if maxIntegerDigits < cappedDigits l then _
    else _) = _
  cases hstorable : storable l with
  | true =>
    rw [hstorable] at hcapped
    have hnot := not_or.mp fun h => absurd (hcapped.mp h) (by decide)
    rw [if_neg hnot.1, if_neg hnot.2]
    rfl
  | false =>
    rw [hstorable] at hcapped
    rcases hcapped.mpr rfl with h | h
    · rw [if_pos h]
      rfl
    · by_cases hscale : maxScale < cappedScale l
      · rw [if_pos hscale]
        rfl
      · rw [if_neg hscale, if_pos h]
        rfl

theorem parsed_canonicalLength (hlength : l.text.length < 2 ^ 29) (h : storable l = true) :
    (parsed l).canonicalLength = .done ((encoded bytes l.plain.text).length : Int) := by
  obtain ⟨hscale, hdigits, -, -⟩ := capped_of_storable hlength h
  have hlimits := h
  rw [storable, Literal.length_plain_fraction, Bool.and_eq_true, decide_eq_true_eq,
    decide_eq_true_eq] at hlimits
  have hsigned : (parsed l).addSign (max (l.plain.significant : Int) 1) =
      .done (max (l.plain.significant : Int) 1 + if l.negative && !l.isZero then 1 else 0) := by
    rw [Number.addSign, parsed_isZero, show (parsed l).negative = l.negative from rfl]
    split
    · exact i64_eq (by omega)
    · rw [add_zero]
  rw [Number.canonicalLength, parsed_integerDigits hlength, Checked.done_bind, hdigits, hsigned,
    Checked.done_bind, show (parsed l).scale = cappedScale l from rfl, hscale,
    length_encoded_plain]
  by_cases hpos : 0 < l.scale
  · rw [if_pos (show (0 : Int) < l.scale by exact_mod_cast hpos), if_pos hpos, i64_eq (by omega),
      Checked.done_bind, i64_eq (by split <;> omega)]
    push_cast
    rfl
  · rw [if_neg (show ¬(0 : Int) < l.scale by exact_mod_cast hpos), if_neg hpos]
    push_cast
    rw [add_zero]
    rfl

/-- Rust writes the plain form of a storable literal. -/
theorem parsed_writeCanonical (hlength : l.text.length < 2 ^ 29) (h : storable l = true) :
    (parsed l).writeCanonical = .done (encoded bytes l.plain.text) := by
  obtain ⟨hscale, hdigits, hfraction, hinteger⟩ := capped_of_storable hlength h
  have hlimits := h
  have hlengths := length_digits_le l
  rw [storable, Literal.length_plain_fraction, Bool.and_eq_true, decide_eq_true_eq,
    decide_eq_true_eq] at hlimits
  have hunits : ∀ start stop, unitsFrom (parsed l).digit start stop =
      digitUnits bytes (l.digitsFrom start stop) := by
    intro start stop
    rw [← unitsFrom_digitAt]
    congr 1
    funext index
    exact parsed_digit index
  have hwritten : (if (l.plain.significant : Int) = 0 then [ascii bytes '0']
      else digitUnits bytes (l.digitsFrom l.firstSignificant (cappedPoint l))) =
      if l.plain.significant = 0 then [ascii bytes '0']
      else digitUnits bytes (l.digitsFrom l.firstSignificant l.point) := by
    by_cases hzero : l.plain.significant = 0
    · rw [if_pos hzero, if_pos (by exact_mod_cast hzero)]
    · rw [if_neg hzero, if_neg (by exact_mod_cast hzero), hinteger hzero]
  rw [Number.writeCanonical, parsed_integerDigits hlength, Checked.done_bind, parsed_isZero,
    show (parsed l).negative = l.negative from rfl, show (parsed l).scale = cappedScale l from rfl,
    show (parsed l).point = cappedPoint l from rfl, hscale, hdigits, parsed_firstSignificant,
    hunits, hwritten, encoded_plain]
  by_cases hpos : 0 < l.scale
  · rw [if_pos (by exact_mod_cast hpos), if_neg hpos.ne', i64_eq ?_, Checked.done_bind,
      hunits, hfraction hpos]
    · simp
    · unfold cappedPoint capped exponentCap
      omega
  · rw [if_neg (by exact_mod_cast hpos), if_pos (Nat.eq_zero_of_not_pos hpos)]
    simp

end Rust

section Shared

theorem digits_eq_map (l : Literal) :
    ((List.range l.digits.length).map fun k : Nat => l.digitAt k) = l.digits := by
  refine List.ext_getElem (by simp) fun k hk hk' => ?_
  rw [List.getElem_map, List.getElem_range, Literal.digitAt, if_neg (by omega), Int.toNat_natCast,
    List.getElem?_eq_getElem hk', Option.getD_some]

theorem digitChar_bne (d : Digit) :
    (ascii bytes (digitChar d) != ascii bytes '0') = decide (d ≠ 0) := by
  revert d
  decide

variable {α : Type} {E : AsciiEncoding α}

theorem foldl_digits (digitOf : α → Int) (hdigit : ∀ d, digitOf (ascii E (digitChar d)) = d.val)
    (digits : List Digit) :
    (digitUnits E digits).foldl (fun (exponent : Int) c =>
        min (exponent * 10 + digitOf c) exponentCap) 0 =
      min (digitsValue digits : Int) exponentCap := by
  have hfold := foldl_min digits 0
  rw [Nat.zero_mul, Nat.zero_add, Nat.cast_zero, show min 0 exponentCap = 0 from rfl] at hfold
  rw [digitUnits, List.foldl_map, ← hfold]
  simp only [hdigit]

theorem head_any_or (units : List α) (p q : α → Bool) :
    (units.head?.any fun c => p c || q c) = (units.head?.any q || units.head?.any p) := by
  cases units with
  | nil => rfl
  | cons c units => exact Bool.or_comm _ _

/-- What is written with the capped point is the plain form. -/
theorem written_plain {l : Literal} (hlength : l.text.length < 2 ^ 29) (h : storable l = true) :
    (if l.negative && !l.isZero then [ascii E '-'] else []) ++
        (if cappedDigits l = 0 then [ascii E '0']
          else digitUnits E (l.digitsFrom l.firstSignificant (cappedPoint l))) ++
        (if 0 < cappedScale l then
          ascii E '.' :: digitUnits E (l.digitsFrom (cappedPoint l) (cappedPoint l + cappedScale l))
        else []) = encoded E l.plain.text := by
  obtain ⟨hscale, hdigits, hfraction, hinteger⟩ := capped_of_storable hlength h
  rw [encoded_plain, hscale, hdigits, List.append_assoc]
  congr 2
  · by_cases hzero : l.plain.significant = 0
    · rw [if_pos hzero, if_pos (by exact_mod_cast hzero)]
    · rw [if_neg hzero, if_neg (by exact_mod_cast hzero), hinteger hzero]
  · by_cases hpos : 0 < l.scale
    · rw [if_pos (by exact_mod_cast hpos), if_neg hpos.ne', hfraction hpos]
    · rw [if_neg (by exact_mod_cast hpos), if_pos (Nat.eq_zero_of_not_pos hpos)]

theorem counted_plain {l : Literal} (hlength : l.text.length < 2 ^ 29) (h : storable l = true) :
    max (cappedDigits l) 1 + (if l.negative && !l.isZero then 1 else 0) +
        (if 0 < cappedScale l then 1 + cappedScale l else 0) =
      ((encoded E l.plain.text).length : Int) := by
  obtain ⟨hscale, hdigits, -, -⟩ := capped_of_storable hlength h
  rw [length_encoded_plain, hscale, hdigits]
  push_cast
  simp only [Nat.cast_pos]

end Shared

namespace Go.JsonNumber

variable {l : Literal}

def parsed (l : Literal) : JsonNumber :=
  { negative := l.negative
    integer := digitUnits bytes l.integer
    fraction := digitUnits bytes l.fraction
    first := l.firstSignificant
    point := cappedPoint l
    scale := cappedScale l }

theorem parseExponent_units (e : Exponent) :
    parseExponent (exponentUnits bytes e) = capped e.value := by
  obtain ⟨hminus, hplus, hdigits⟩ := exponentUnits_head (E := bytes) e
  have hsigned : ((exponentUnits bytes e).head?.any fun c => is bytes '+' c || is bytes '-' c) =
      e.sign.isSome := by
    rw [head_any_or, hminus, hplus]
    cases e.sign with
    | none => rfl
    | some negative => cases negative <;> rfl
  have hdigit : ∀ d : Digit, (((ascii bytes (digitChar d)) - ascii bytes '0').toNat : Int) =
      d.val := by
    decide
  simp only [parseExponent, hsigned, hminus, hdigits,
    foldl_digits (E := bytes) (fun c => ((c - ascii bytes '0').toNat : Int)) hdigit]
  rw [← capped_value]
  simp only [decide_eq_true_eq]

theorem exponent_units (e : Option Exponent) :
    parseExponent ((e.map (exponentUnits bytes)).getD []) =
      capped ((e.map Exponent.value).getD 0) := by
  cases e with
  | none => rfl
  | some e => exact parseExponent_units e

theorem digit_units (index : Int) :
    digit (digitUnits bytes l.integer) (digitUnits bytes l.fraction) index =
      ascii bytes (digitChar (l.digitAt index)) := by
  by_cases hneg : index < 0
  · simp only [digit, hneg, decide_true, Bool.true_or, if_true, Literal.digitAt]
    rfl
  by_cases hend : digitCount (digitUnits bytes l.integer) (digitUnits bytes l.fraction) ≤ index
  · have hdigits : l.digits[index.toNat]? = none := by
      rw [List.getElem?_eq_none_iff, Literal.length_digits]
      rw [digitCount, length_digitUnits, length_digitUnits] at hend
      omega
    simp only [digit, hend, decide_true, Bool.or_true, if_true, Literal.digitAt, hneg, if_false,
      hdigits]
    rfl
  · rw [← getElem?_digits l index hneg]
    have hlt : index < (digitUnits bytes l.integer).length ↔
        index.toNat < (digitUnits bytes l.integer).length := by omega
    simp only [digit, hneg, hend, decide_false, Bool.or_false, Bool.false_eq_true, if_false, hlt]

theorem parse_text : parse (encoded bytes l.text) = parsed l := by
  have hfirst : ((List.range (digitCount (digitUnits bytes l.integer)
      (digitUnits bytes l.fraction)).toNat).findIdx fun index : Nat =>
        digit (digitUnits bytes l.integer) (digitUnits bytes l.fraction) index !=
          ascii bytes '0') = l.firstSignificant := by
    rw [Literal.firstSignificant, ← digits_eq_map l, List.findIdx_map, digitCount,
      length_digitUnits, length_digitUnits, Int.toNat_natCast, ← Literal.length_digits]
    congr 1
    funext index
    rw [digit_units]
    exact digitChar_bne (l.digitAt index)
  have hexponent := exponent_units l.exponent
  simp only [parse, splitLiteral_text, hexponent, hfirst, length_digitUnits]
  rw [parsed, cappedPoint, cappedScale, max_comm (l.fraction.length - capped l.power)]
  rfl

theorem parsed_zero : (parsed l).zero = l.isZero := by
  rw [Bool.eq_iff_iff, Literal.isZero_iff_firstSignificant, zero, decide_eq_true_eq, parsed,
    digitCount, length_digitUnits, length_digitUnits, Literal.length_digits]
  exact Nat.cast_inj

theorem parsed_integerDigits : (parsed l).integerDigits = cappedDigits l := by
  rw [integerDigits, parsed_zero, cappedDigits, max_comm]
  rfl

/-- Go refuses a literal that is not storable. -/
theorem parsed_check (hlength : l.text.length < 2 ^ 29) (text : List UInt8) :
    (parsed l).check text =
      if storable l = true then .ok () else .error (outOfRange bytes text) := by
  rw [check, parsed_integerDigits]
  change (if maxScale < cappedScale l ∨ maxIntegerDigits < cappedDigits l then _ else _) = _
  simp only [capped_iff hlength]
  cases storable l <;> rfl

theorem parsed_canonicalLength (hlength : l.text.length < 2 ^ 29) (h : storable l = true) :
    (parsed l).canonicalLength = ((encoded bytes l.plain.text).length : Int) := by
  rw [canonicalLength, parsed_integerDigits, parsed_zero, max_comm, ← counted_plain hlength h]
  rfl

/-- Go writes the plain form of a storable literal. -/
theorem parsed_appendCanonical (hlength : l.text.length < 2 ^ 29) (h : storable l = true) :
    (parsed l).appendCanonical = encoded bytes l.plain.text := by
  have hunits : ∀ start stop, unitsFrom (digit (parsed l).integer (parsed l).fraction) start stop =
      digitUnits bytes (l.digitsFrom start stop) := by
    intro start stop
    rw [← unitsFrom_digitAt]
    congr 1
    funext index
    exact digit_units index
  rw [appendCanonical, parsed_integerDigits, parsed_zero, hunits, hunits,
    ← written_plain hlength h]
  rfl

end Go.JsonNumber

namespace TypeScript.NumberLiteral

variable {l : Literal}

def parsed (l : Literal) : NumberLiteral :=
  { text := encoded units l.text
    negative := l.negative
    digits := digitUnits units l.integer ++ digitUnits units l.fraction
    point := cappedPoint l
    scale := cappedScale l }

theorem parseExponent_units (e : Exponent) :
    parseExponent (exponentUnits units e) = capped e.value := by
  obtain ⟨hminus, hplus, hdigits⟩ := exponentUnits_head (E := units) e
  have hsigned : (decide (e.sign = some true) || decide (e.sign = some false)) = e.sign.isSome := by
    cases e.sign with
    | none => rfl
    | some negative => cases negative <;> rfl
  have hdigit : ∀ d : Digit, ((if isDigit units (ascii units (digitChar d)) then
      (ascii units (digitChar d)).toNat - 48 else 0 : Nat) : Int) = d.val := by
    decide
  simp only [parseExponent, hminus, hplus, hsigned, hdigits,
    foldl_digits (E := units) (fun c => ((if isDigit units c then c.toNat - 48 else 0 : Nat) : Int))
      hdigit]
  rw [← capped_value]
  simp only [decide_eq_true_eq]

theorem new_text : new (encoded units l.text) = parsed l := by
  have hexponent : ((l.exponent.map (exponentUnits units)).map parseExponent).getD 0 =
      capped l.power := by
    rw [Literal.power]
    cases l.exponent with
    | none => rfl
    | some e => exact parseExponent_units e
  simp only [new, splitLiteral_text, hexponent, length_digitUnits]
  rfl

theorem parsed_firstSignificant : (parsed l).firstSignificant = l.firstSignificant := by
  have hdigit : ∀ d : Digit, ('1'.toNat ≤ (ascii units (digitChar d)).toNat &&
      (ascii units (digitChar d)).toNat ≤ '9'.toNat) = decide (d ≠ 0) := by
    decide
  exact congrArg Nat.cast (findIdx_digits l _ hdigit)

theorem parsed_isZero : (parsed l).isZero = l.isZero := by
  rw [Bool.eq_iff_iff, Literal.isZero_iff_firstSignificant, isZero, decide_eq_true_eq,
    parsed_firstSignificant, parsed, List.length_append, length_digitUnits, length_digitUnits,
    Literal.length_digits]
  exact Nat.cast_inj

theorem parsed_integerDigits : (parsed l).integerDigits = cappedDigits l := by
  rw [integerDigits, parsed_isZero, parsed_firstSignificant, cappedDigits]
  rfl

/-- TypeScript refuses a literal that is not storable. -/
theorem parsed_check (hlength : l.text.length < 2 ^ 29) :
    (parsed l).check =
      if storable l = true then .ok () else .error (outOfRange units (encoded units l.text)) := by
  rw [check, parsed_integerDigits]
  change (if maxScale < cappedScale l ∨ maxIntegerDigits < cappedDigits l then _ else _) = _
  simp only [capped_iff hlength]
  cases storable l <;> rfl

theorem parsed_canonicalLength (hlength : l.text.length < 2 ^ 29) (h : storable l = true) :
    (parsed l).canonicalLength = ((encoded units l.plain.text).length : Int) := by
  rw [canonicalLength, parsed_integerDigits, parsed_isZero, ← counted_plain hlength h]
  rfl

theorem parsed_range (start stop : Int) :
    (parsed l).range start stop = digitUnits units (l.digitsFrom start stop) := by
  have hlength : (parsed l).digits.length = l.digits.length := by
    rw [parsed, ← digitUnits_append, length_digitUnits, Literal.digits]
  have hwritten : ∀ k : Nat, k < l.digits.length →
      (parsed l).digits[k]? = some (ascii units (digitChar (l.digitAt k))) := by
    intro k hk
    rw [parsed, ← digitUnits_append, digitUnits, List.getElem?_map, Literal.digitAt,
      if_neg (by omega), Int.toNat_natCast, ← Literal.digits, List.getElem?_eq_getElem hk]
    rfl
  have hzero : ∀ index : Int, index < 0 ∨ l.digits.length ≤ index →
      ascii units '0' = ascii units (digitChar (l.digitAt index)) := by
    intro index hindex
    rw [Literal.digitAt]
    split
    · rfl
    · rw [List.getElem?_eq_none (by omega)]
      rfl
  refine List.ext_getElem? fun k => ?_
  -- The zeros before the written digits, the written ones among them, and the zeros after.
  simp only [range, hlength, List.append_assoc, List.getElem?_append, List.length_replicate,
    List.length_drop, List.length_take, List.getElem?_replicate, List.getElem?_drop,
    List.getElem?_take, digitUnits, Literal.digitsFrom, List.getElem?_map]
  by_cases hk : k < (stop - start).toNat
  · rw [List.getElem?_range hk]
    split
    · rw [hzero (start + k) (.inl (by omega))]
      rfl
    split
    · rw [if_pos (by omega), hwritten _ (by omega)]
      congr 4
      omega
    · rw [if_pos (by omega), hzero (start + k) (.inr (by omega))]
      rfl
  · have hend : (List.range (stop - start).toNat)[k]? = none := by
      rw [List.getElem?_eq_none_iff, List.length_range]
      omega
    rw [hend, if_neg (by omega), if_neg (by omega), if_neg (by omega)]
    rfl

/-- TypeScript writes the plain form of a storable literal. -/
theorem parsed_canonical (hlength : l.text.length < 2 ^ 29) (h : storable l = true) :
    (parsed l).canonical = encoded units l.plain.text := by
  rw [canonical, parsed_integerDigits, parsed_isZero, parsed_range, parsed_range,
    parsed_firstSignificant, ← written_plain hlength h]
  rfl

end TypeScript.NumberLiteral

end EventStore.Numbers
