import EventStore.Numbers.Documents

/-!
Numbers are made canonical exactly, and alike in every language. Of text that is no valid document
the Rust function promises only that it returns, and its 64-bit size can overflow on texts above
2^49 bytes.
-/
namespace EventStore.Numbers

open Encodings JsonNumbers JsonGrammar

namespace Checked

variable {α β : Type}

def Safe (post : α → Prop) : Checked α → Prop
  | .done a => post a
  | .refused _ => True
  | .panicked => False

theorem Safe.bind {x : Checked α} {f : α → Checked β} {mid : α → Prop} {post : β → Prop}
    (hx : x.Safe mid) (hf : ∀ a, mid a → (f a).Safe post) : (x >>= f).Safe post := by
  cases x with
  | done a => exact hf a hx
  | refused error => trivial
  | panicked => exact hx

theorem Safe.i64 {n : Int} (h : -2 ^ 63 ≤ n ∧ n < 2 ^ 63) : (i64 n).Safe (· = n) := by
  rw [i64_eq h]
  rfl

theorem Safe.mapM {f : α → Checked β} {items : List α}
    (hf : ∀ a ∈ items, (f a).Safe fun _ => True) : (items.mapM f).Safe fun _ => True := by
  induction items with
  | nil => trivial
  | cons a items ih =>
    rw [List.forall_mem_cons] at hf
    rw [List.mapM_cons]
    exact hf.1.bind fun _ _ => (ih hf.2).bind fun _ _ => trivial

end Checked

section Tokens

variable {α : Type} {E : AsciiEncoding α} {cut : List α → Bool}

def Token.text : Token α → List α
  | .other text => text
  | .number text => text

theorem flatMap_flush (run : List α) : (flush run).flatMap Token.text = run := by
  cases run with
  | nil => rfl
  | cons a run => simp [flush, Token.text]

theorem scan_text {inString : Bool} {run text : List α} {tokens : List (Token α)}
    (h : scan E cut inString run text = some tokens) :
    tokens.flatMap Token.text = run ++ text ∧ ∀ number, .number number ∈ tokens → number ≠ [] := by
  have hflush : ∀ run number, Token.number number ∉ flush (α := α) run := by
    intro run number hmem
    unfold flush at hmem
    split at hmem <;> simp at hmem
  fun_induction scan E cut inString run text generalizing tokens with
  | case1 inString run =>
    obtain rfl := Option.some.inj h
    exact ⟨by rw [flatMap_flush, List.append_nil], fun number hmem => absurd hmem (hflush _ _)⟩
  | case2 inString run c rest hescape ih =>
    obtain ⟨htext, hnumbers⟩ := ih h
    refine ⟨?_, hnumbers⟩
    rw [htext, List.append_assoc, List.cons_append, List.take_append_drop]
  | case3 inString run c rest hescape hquote ih =>
    obtain ⟨htext, hnumbers⟩ := ih h
    exact ⟨by rw [htext, List.append_assoc, List.singleton_append], hnumbers⟩
  | case4 inString run c rest hescape hquote hnumber hcut ih =>
    obtain ⟨tail, htail, rfl⟩ := Option.map_eq_some_iff.mp h
    obtain ⟨htext, hnumbers⟩ := ih htail
    constructor
    · rw [List.flatMap_append, flatMap_flush, List.flatMap_cons, htext, Token.text,
        List.nil_append, List.cons_append, List.takeWhile_append_dropWhile]
    · intro number hmem
      rcases List.mem_append.mp hmem with hmem | hmem
      · exact absurd hmem (hflush _ _)
      · rcases List.mem_cons.mp hmem with hhead | hmem
        · rw [Token.number.inj hhead]
          exact List.cons_ne_nil _ _
        · exact hnumbers number hmem
  | case5 inString run c rest hescape hquote hnumber hcut => cases h
  | case6 inString run c rest hescape hquote hnumber ih =>
    obtain ⟨htext, hnumbers⟩ := ih h
    exact ⟨by rw [htext, List.append_assoc, List.singleton_append], hnumbers⟩

end Tokens

section Arbitrary

/-- What any number token comes to. The exponent is below the cap and has no more digits than the
token leaves it. -/
structure Number.Within (n : Number) (length : Nat) : Prop where
  digits : n.integer.length + n.fraction.length ≤ length
  exponent : ∃ (exponent : Int) (width : Nat), n.point = n.integer.length + exponent ∧
    n.scale = max (n.fraction.length - exponent) 0 ∧ exponent.natAbs ≤ 2 ^ 30 ∧
    exponent.natAbs < 10 ^ width ∧ (width = 0 ∨
      n.negative.toNat + n.integer.length + n.fraction.length + width + 1 ≤ length)

theorem exponentDigit_within (c : UInt8) : 0 ≤ exponentDigit c ∧ exponentDigit c ≤ 9 := by
  unfold exponentDigit
  split
  · rename_i h
    simp only [isDigit, Bool.and_eq_true, decide_eq_true_eq] at h
    change 48 ≤ c.toNat ∧ c.toNat ≤ 57 at h
    change 0 ≤ (c.toNat : Int) - 48 ∧ (c.toNat : Int) - 48 ≤ 9
    omega
  · decide

theorem foldlM_addDigit_safe (items : List UInt8) {magnitude : Int} {width : Nat}
    (h : 0 ≤ magnitude ∧ magnitude ≤ exponentCap ∧ magnitude < 10 ^ width) :
    (items.foldlM addDigit magnitude).Safe fun total =>
      0 ≤ total ∧ total ≤ exponentCap ∧ total < 10 ^ (width + items.length) := by
  induction items generalizing magnitude width with
  | nil => exact h
  | cons c items ih =>
    have hc := exponentDigit_within c
    obtain ⟨hnonneg, hcap, hwidth⟩ := h
    unfold exponentCap at hcap
    rw [List.foldlM_cons, List.length_cons, Nat.add_comm items.length, ← Nat.add_assoc]
    suffices hstep : (addDigit magnitude c).Safe fun next => 0 ≤ next ∧ next ≤ exponentCap ∧
        next < 10 ^ (width + 1) from hstep.bind fun _ => ih
    refine (Checked.Safe.i64 (by omega)).bind fun tenfold htenfold => ?_
    refine (Checked.Safe.i64 (by omega)).bind fun sum hsum => ?_
    change 0 ≤ min sum exponentCap ∧ min sum exponentCap ≤ exponentCap ∧
      min sum exponentCap < 10 ^ (width + 1)
    rw [pow_succ]
    unfold exponentCap
    omega

theorem parseExponent_safe (text : List UInt8) :
    (parseExponent text).Safe fun exponent =>
      exponent.natAbs ≤ 2 ^ 30 ∧ exponent.natAbs < 10 ^ text.length := by
  generalize hdigits : (if (text.head?.any (is bytes '-') || text.head?.any (is bytes '+')) = true
    then text.drop 1 else text) = digits
  have hlength : digits.length ≤ text.length := by
    rw [← hdigits]
    split
    · rw [List.length_drop]
      omega
    · exact le_rfl
  have hpow : (10 : Int) ^ (0 + digits.length) ≤ 10 ^ text.length :=
    pow_le_pow_right₀ (by decide) (by omega)
  have hnat : ((10 ^ text.length : Nat) : Int) = 10 ^ text.length := by push_cast; rfl
  have hfold : (digits.foldlM addDigit 0).Safe fun total => 0 ≤ total ∧ total ≤ exponentCap ∧
      total < 10 ^ (0 + digits.length) := foldlM_addDigit_safe digits (by decide)
  rw [parseExponent, hdigits]
  refine hfold.bind fun magnitude hmagnitude => ?_
  unfold exponentCap at hmagnitude
  split
  · refine (i64_eq (by omega) : i64 (-magnitude) = _) ▸ ?_
    change (-magnitude).natAbs ≤ 2 ^ 30 ∧ (-magnitude).natAbs < 10 ^ text.length
    omega
  · change magnitude.natAbs ≤ 2 ^ 30 ∧ magnitude.natAbs < 10 ^ text.length
    omega

theorem exponentOf_safe (text : Option (List UInt8)) :
    (exponentOf text).Safe fun exponent =>
      exponent.natAbs ≤ 2 ^ 30 ∧ exponent.natAbs < 10 ^ (text.elim 0 List.length) := by
  cases text with
  | none => exact ⟨by decide, by decide⟩
  | some text => exact parseExponent_safe text

theorem length_splitLiteral (text : List UInt8) :
    let parts := splitLiteral bytes text
    let width := parts.exponent.elim 0 List.length
    parts.integer.length + parts.fraction.length ≤ text.length ∧ (width = 0 ∨
      parts.negative.toNat + parts.integer.length + parts.fraction.length + width + 1 ≤
        text.length) := by
  simp only [splitLiteral]
  generalize hunsigned : (if text.head?.any (is bytes '-') = true then text.drop 1 else text) =
    unsigned
  have hle : (text.head?.any (is bytes '-')).toNat + unsigned.length ≤ text.length := by
    rw [← hunsigned]
    cases text with
    | nil => exact le_rfl
    | cons c text => split <;> simp_all [Nat.add_comm]
  have hmantissa := congrArg List.length (List.takeWhile_append_dropWhile
    (p := fun a => !isExponentMark bytes a) (l := unsigned))
  have hpoint := congrArg List.length (List.takeWhile_append_dropWhile
    (p := fun a => !is bytes '.' a) (l := unsigned.takeWhile fun a => !isExponentMark bytes a))
  rw [List.length_append] at hmantissa hpoint
  rw [List.length_drop]
  refine ⟨by omega, ?_⟩
  cases hrest : unsigned.dropWhile (fun a => !isExponentMark bytes a) with
  | nil => exact .inl rfl
  | cons mark rest =>
    rw [hrest, List.length_cons] at hmantissa
    exact .inr (by simp only [List.tail?_cons, Option.elim_some]; omega)

theorem parse_safe {text : List UInt8} (hlength : text.length < 2 ^ 49) :
    (Number.parse text).Safe fun n => n.Within text.length := by
  obtain ⟨hdigits, hroom⟩ := length_splitLiteral text
  refine (exponentOf_safe _).bind fun exponent ⟨hcap, hwidth⟩ => ?_
  refine (Checked.Safe.i64 (by omega)).bind fun point hpoint => ?_
  refine (Checked.Safe.i64 (by omega)).bind fun scale hscale => ?_
  exact ⟨hdigits, exponent, _, hpoint, by rw [hscale], hcap, hwidth, hroom⟩

namespace Number

variable {n : Number} {length : Nat}

theorem Within.integerDigits (h : n.Within length) (hlength : length < 2 ^ 49) :
    ∃ digits, n.integerDigits = .done digits ∧ 0 ≤ digits ∧ digits ≤ max n.point 0 ∧
      (n.isZero = true → digits = 0) := by
  obtain ⟨hdigits, exponent, -, hpoint, -, hcap, -⟩ := h
  have hfirst : 0 ≤ n.firstSignificant ∧ n.firstSignificant ≤ length := by
    have hle : (n.integer ++ n.fraction).findIdx (fun c => !is bytes '0' c) ≤
        (n.integer ++ n.fraction).length := List.findIdx_le_length
    rw [List.length_append] at hle
    unfold Number.firstSignificant
    omega
  rw [Number.integerDigits]
  split
  · exact ⟨0, rfl, le_rfl, le_max_right _ _, fun _ => rfl⟩
  · rename_i hzero
    rw [i64_eq (by omega), Checked.done_bind]
    exact ⟨_, rfl, le_max_right _ _, by omega, fun h => absurd h hzero⟩

/-- The characters written for a number are at most 2^14 for each byte of it. -/
theorem Within.size_le (h : n.Within length) (hpos : 0 < length) {digits : Int}
    (hdigits : 0 ≤ digits ∧ digits ≤ max n.point 0 ∧ (n.isZero = true → digits = 0))
    (hlimits : n.scale ≤ 16383 ∧ digits ≤ 131072) :
    max digits 1 + (n.negative && !n.isZero).toNat + (if 0 < n.scale then 1 + n.scale else 0) ≤
      2 ^ 14 * length := by
  obtain ⟨htotal, exponent, width, hpoint, hscale, -, hwidth, hroom⟩ := h
  have hsign : (n.negative && !n.isZero).toNat ≤ n.negative.toNat := by
    cases n.negative <;> cases n.isZero <;> decide
  have hone := n.negative.toNat_le
  rcases Nat.eq_zero_or_pos width with rfl | hwide
  · rw [pow_zero] at hwidth
    split <;> omega
  have hroom := hroom.resolve_left hwide.ne'
  by_cases hfraction : 0 < n.scale
  · -- The point is within the digits, so all but the zeros after it are.
    rw [if_pos hfraction]
    omega
  · rw [if_neg hfraction]
    cases hzero : n.isZero with
    | true =>
      have := hdigits.2.2 hzero
      simp only [Bool.not_true, Bool.and_false, Bool.toNat_false]
      omega
    | false =>
      have hsome : 0 < n.integer.length + n.fraction.length := by
        by_contra hnone
        have hnil : n.integer ++ n.fraction = [] :=
          List.length_eq_zero_iff.mp (by rw [List.length_append]; omega)
        rw [isZero, firstSignificant, digitCount, ← List.length_append, hnil] at hzero
        cases hzero
      rw [hzero] at hsign
      -- Five digits of an exponent need seven bytes, and six digits eight without the sign.
      by_cases hfour : width ≤ 4
      · have := Nat.pow_le_pow_right (show 0 < 10 by decide) hfour
        omega
      · by_cases hfive : width ≤ 5
        · have := Nat.pow_le_pow_right (show 0 < 10 by decide) hfive
          omega
        · omega

theorem Within.canonicalLength (h : n.Within length) (hlength : length < 2 ^ 49)
    (hpos : 0 < length) {text : List UInt8} (hcheck : n.check text = .done ()) :
    n.canonicalLength.Safe fun size : Int => 0 ≤ size ∧ size ≤ 2 ^ 14 * length := by
  obtain ⟨digits, hdone, hdigits⟩ := h.integerDigits hlength
  -- What passes the check is within the limits.
  have hlimits : n.scale ≤ 16383 ∧ digits ≤ 131072 := by
    rw [check] at hcheck
    split at hcheck
    · cases hcheck
    · rename_i hscale'
      rw [hdone, Checked.done_bind] at hcheck
      split at hcheck
      · cases hcheck
      · rename_i hdigits'
        unfold maxScale at hscale'
        unfold maxIntegerDigits at hdigits'
        omega
  have hsize := h.size_le hpos hdigits hlimits
  have hsign : (n.addSign (max digits 1)).Safe fun size =>
      size = max digits 1 + (n.negative && !n.isZero).toNat := by
    rw [addSign]
    split
    · rename_i hnegative
      rw [i64_eq (by omega), hnegative]
      rfl
    · rename_i hnegative
      rw [Bool.not_eq_true] at hnegative
      rw [hnegative]
      exact (add_zero _).symm
  rw [Number.canonicalLength, hdone, Checked.done_bind]
  refine hsign.bind fun size hsize => ?_
  split
  · refine (Checked.Safe.i64 (by omega)).bind fun fraction hfraction => ?_
    rw [i64_eq (by omega)]
    change 0 ≤ size + fraction ∧ size + fraction ≤ 2 ^ 14 * length
    omega
  · change 0 ≤ size ∧ size ≤ 2 ^ 14 * length
    omega

theorem Within.writeCanonical (h : n.Within length) (hlength : length < 2 ^ 49) :
    n.writeCanonical.Safe fun _ => True := by
  obtain ⟨digits, hdone, -⟩ := h.integerDigits hlength
  obtain ⟨hdigits, exponent, -, hpoint, hscale, hcap, -⟩ := h
  simp only [Number.writeCanonical, hdone, Checked.done_bind]
  by_cases hpos : 0 < n.scale
  · rw [if_pos hpos]
    exact (Checked.Safe.i64 (by omega)).bind fun _ _ => trivial
  · rw [if_neg hpos]
    trivial

end Number

theorem check_safe {n : Number} {length : Nat} (h : n.Within length) (hlength : length < 2 ^ 49)
    (text : List UInt8) : (n.check text).Safe fun _ => True := by
  obtain ⟨digits, hdone, -⟩ := h.integerDigits hlength
  rw [Number.check]
  split
  · trivial
  · rw [hdone, Checked.done_bind]
    split <;> trivial

theorem measure_safe {state : Int × Bool} {token : Token UInt8} (hstate : 0 ≤ state.1)
    (hbound : state.1 + 2 ^ 14 * token.text.length < 2 ^ 63)
    (hnumber : ∀ number, token = .number number → number ≠ []) :
    (measure state token).Safe fun next =>
      0 ≤ next.1 ∧ next.1 ≤ state.1 + 2 ^ 14 * token.text.length := by
  cases token with
  | other text =>
    simp only [Token.text] at hbound ⊢
    refine (Checked.Safe.i64 (by omega)).bind fun size hsize => ?_
    change 0 ≤ size ∧ size ≤ _
    omega
  | number text =>
    have hpos := List.length_pos_iff.mpr (hnumber text rfl)
    simp only [Token.text] at hbound ⊢
    have hlength : text.length < 2 ^ 49 := by omega
    refine (parse_safe hlength).bind fun n hn => ?_
    cases hcheck : n.check text with
    | refused error => trivial
    | panicked =>
      have hsafe := check_safe hn hlength text
      rw [hcheck] at hsafe
      exact hsafe
    | done _ =>
      rw [Checked.done_bind]
      refine (hn.canonicalLength hlength hpos hcheck).bind fun size hsize => ?_
      refine (Checked.Safe.i64 (by omega)).bind fun total htotal => ?_
      change 0 ≤ total ∧ total ≤ _
      omega

theorem foldlM_measure_safe {tokens : List (Token UInt8)} {state : Int × Bool}
    (hstate : 0 ≤ state.1)
    (hbound : state.1 + 2 ^ 14 * (tokens.flatMap Token.text).length < 2 ^ 63)
    (hnumber : ∀ number, .number number ∈ tokens → number ≠ []) :
    (tokens.foldlM measure state).Safe fun _ => True := by
  induction tokens generalizing state with
  | nil => trivial
  | cons token tokens ih =>
    rw [List.flatMap_cons, List.length_append, Nat.cast_add] at hbound
    rw [List.foldlM_cons]
    refine (measure_safe hstate (by omega) fun number heq =>
      hnumber number (heq ▸ List.mem_cons_self)).bind fun next hnext => ?_
    exact ih hnext.1 (by omega) fun number hmem => hnumber number (List.mem_cons_of_mem _ hmem)

theorem length_token_le {token : Token UInt8} {tokens : List (Token UInt8)} (h : token ∈ tokens) :
    token.text.length ≤ (tokens.flatMap Token.text).length := by
  rw [List.length_flatMap]
  exact List.le_sum_of_mem (List.mem_map_of_mem h)

/-- On a text below 2^49 bytes the Rust function does not panic, and nothing overflows. -/
theorem canonicalNumbers_safe {text : List Char} (hlength : (encoded bytes text).length < 2 ^ 49) :
    canonicalNumbers (encoded bytes text) ≠ .panicked := by
  have hsome : (scan bytes charBoundary false [] ([] ++ encoded bytes text)).isSome = true :=
    scan_isSome charBoundary_encoded text fun _ h => absurd h List.not_mem_nil
  obtain ⟨tokens', hscan⟩ := Option.isSome_iff_exists.mp hsome
  rw [List.nil_append] at hscan
  obtain ⟨htext, hnumbers⟩ := scan_text hscan
  rw [List.nil_append] at htext
  have hmeasure : (tokens'.foldlM measure (0, false)).Safe fun _ => True := by
    refine foldlM_measure_safe le_rfl ?_ hnumbers
    rw [htext]
    omega
  have hwrite : (tokens'.mapM writeToken).Safe fun _ => True := by
    refine Checked.Safe.mapM fun token htoken => ?_
    cases token with
    | other part => trivial
    | number part =>
      have hpart : part.length < 2 ^ 49 :=
        (length_token_le htoken).trans_lt (by rw [htext]; exact hlength)
      exact (parse_safe hpart).bind fun n hn => hn.writeCanonical hpart
  have hsafe : (canonicalNumbers (encoded bytes text)).Safe fun _ => True := by
    rw [canonicalNumbers, tokens, hscan, Checked.done_bind]
    refine hmeasure.bind fun state _ => ?_
    obtain ⟨size, changed⟩ := state
    dsimp only
    generalize (if size < 0 then 2 ^ 64 - 1 else size.toNat) = size
    split
    · trivial
    split
    · exact hwrite.bind fun _ _ => trivial
    · trivial
  intro hpanicked
  rw [hpanicked] at hsafe
  exact hsafe

end Arbitrary

variable {pieces : List Piece}

section Documents

/-- A number of the document, or the document that would be written, is past a limit. -/
def OutOfLimits (pieces : List Piece) : Prop :=
  (∃ l ∈ numbers pieces, 16383 < l.plain.fraction.length ∨ 131072 < l.plain.significant) ∨
    65536 < (encoded bytes (chars (plainPieces pieces))).length

theorem storablePieces_eq_ok (h : ¬OutOfLimits pieces) :
    storablePieces pieces = .ok (plainPieces pieces) := by
  have hnumbers : ((numbers pieces).find? fun l => !storable l) = none := by
    refine List.find?_eq_none.mpr fun l hl hstorable => h (.inl ⟨l, hl, ?_⟩)
    rw [Bool.not_eq_true', storable, Bool.and_eq_false_iff, decide_eq_false_iff_not,
      decide_eq_false_iff_not] at hstorable
    omega
  have hsize : ¬maxOutcomeBytes < plainSize pieces := fun hsize => h (.inr hsize)
  rw [storablePieces, hnumbers]
  exact if_neg hsize

theorem storablePieces_eq_error (h : OutOfLimits pieces) :
    ∃ error, storablePieces pieces = .error error := by
  unfold storablePieces
  cases hfind : (numbers pieces).find? fun l => !storable l with
  | some l => exact ⟨_, rfl⟩
  | none =>
    rcases h with ⟨l, hl, hlimits⟩ | hsize
    · have hstorable := List.find?_eq_none.mp hfind l hl
      simp only [Bool.not_eq_true', Bool.not_eq_false, storable, Bool.and_eq_true,
        decide_eq_true_eq] at hstorable
      omega
    · exact ⟨_, if_pos hsize⟩

theorem plainPieces_plainPieces (pieces : List Piece) :
    plainPieces (plainPieces pieces) = plainPieces pieces := by
  rw [plainPieces, plainPieces, List.map_map]
  refine List.map_congr_left fun piece _ => ?_
  cases piece with
  | text text => rfl
  | number l => exact congrArg Piece.number l.plain_plain

theorem mem_numbers_plainPieces {l : Literal} (h : l ∈ numbers (plainPieces pieces)) :
    ∃ l' ∈ numbers pieces, l = l'.plain := by
  obtain ⟨piece, hpiece, heq⟩ := List.mem_map.mp (mem_numbers.mp h)
  cases piece with
  | text text => cases heq
  | number l' => exact ⟨l', mem_numbers.mpr hpiece, (Piece.number.inj heq).symm⟩

theorem not_outOfLimits_plainPieces (h : ¬OutOfLimits pieces) :
    ¬OutOfLimits (plainPieces pieces) := by
  rintro (⟨l, hl, hlimits⟩ | hsize)
  · obtain ⟨l', hl', rfl⟩ := mem_numbers_plainPieces hl
    rw [Literal.plain_plain] at hlimits
    exact h (.inl ⟨l', hl', hlimits⟩)
  · rw [plainPieces_plainPieces] at hsize
    exact h (.inr hsize)

/-- What making the numbers of a document canonical comes to. -/
structure MadeCanonical (pieces : List Piece) : Prop where
  refused : (∃ error, canonicalNumbers (encoded bytes (chars pieces)) = .refused error) ↔
    OutOfLimits pieces
  returned : ¬OutOfLimits pieces → canonicalNumbers (encoded bytes (chars pieces)) =
    .done (encoded bytes (chars (plainPieces pieces)))
  written : ∀ l ∈ numbers pieces, l.plain.value = l.value ∧ l.plain.exponent = none ∧
    (l.plain.negative = true → l.plain.value ≠ 0) ∧
    l.plain.fraction.length = (l.fraction.length - l.power).toNat
  again : ¬OutOfLimits pieces → canonicalNumbers (encoded bytes (chars (plainPieces pieces))) =
    .done (encoded bytes (chars (plainPieces pieces)))
  go : canonicalNumbers (encoded bytes (chars pieces)) =
    .ofExcept (Go.canonicalNumbers (encoded bytes (chars pieces)))
  typeScript : ∃ result : Except Error (List Char),
    canonicalNumbers (encoded bytes (chars pieces)) = .ofExcept (result.map (encoded bytes)) ∧
      TypeScript.canonicalNumbers (encoded TypeScript.units (chars pieces)) =
        result.map (encoded TypeScript.units)

theorem canonicalNumbers_of_ok {result : List Piece} (h : Document pieces)
    (hlength : (chars pieces).length < 2 ^ 29) (hresult : storablePieces pieces = .ok result) :
    canonicalNumbers (encoded bytes (chars pieces)) = .done (encoded bytes (chars result)) := by
  rw [canonicalNumbers_document h hlength, hresult]
  rfl

theorem madeCanonical (h : Document pieces)
    (hlength : (encoded bytes (chars pieces)).length < 2 ^ 29) : MadeCanonical pieces where
  refused := by
    have hchars := (length_le_encoded (E := bytes) (chars pieces)).trans_lt hlength
    rw [canonicalNumbers_document h hchars]
    constructor
    · rintro ⟨error, heq⟩
      by_contra hlimits
      rw [storablePieces_eq_ok hlimits] at heq
      cases heq
    · intro hlimits
      obtain ⟨error, herror⟩ := storablePieces_eq_error hlimits
      exact ⟨error, by rw [herror]; rfl⟩
  returned hlimits :=
    canonicalNumbers_of_ok h ((length_le_encoded (E := bytes) _).trans_lt hlength)
      (storablePieces_eq_ok hlimits)
  written l _ := ⟨l.value_plain, rfl, Literal.plain_negative, l.length_plain_fraction⟩
  again hlimits := by
    have hshort : (chars (plainPieces pieces)).length < 2 ^ 29 := by
      have hsize := not_lt.mp (not_or.mp hlimits).2
      have hle := length_le_encoded (E := bytes) (chars (plainPieces pieces))
      omega
    have hplain : Document (plainPieces pieces) := h.mapNumber Literal.plain
    have hresult := canonicalNumbers_of_ok hplain hshort
      (storablePieces_eq_ok (not_outOfLimits_plainPieces hlimits))
    rw [plainPieces_plainPieces] at hresult
    exact hresult
  go := by
    have hchars := (length_le_encoded (E := bytes) (chars pieces)).trans_lt hlength
    rw [canonicalNumbers_document h hchars, Go.canonicalNumbers_document h hchars]
  typeScript := by
    have hchars := (length_le_encoded (E := bytes) (chars pieces)).trans_lt hlength
    refine ⟨(storablePieces pieces).map chars, ?_, ?_⟩
    · rw [canonicalNumbers_document h hchars]
      cases storablePieces pieces <;> rfl
    · rw [TypeScript.canonicalNumbers_document h hchars]
      cases storablePieces pieces <;> rfl

/-- Making numbers canonical is exact and the same in the three languages; on other texts Rust
returns while the size fits 64 bits. -/
theorem canonicalNumbers_exact :
    (∀ pieces : List Piece, Document pieces →
      (encoded bytes (chars pieces)).length < 2 ^ 29 → MadeCanonical pieces) ∧
    ∀ text : List Char, (encoded bytes text).length < 2 ^ 49 →
      canonicalNumbers (encoded bytes text) ≠ .panicked :=
  ⟨fun _ h hlength => madeCanonical h hlength, fun _ hlength => canonicalNumbers_safe hlength⟩

theorem mod_ten_lt (n : Nat) : n % 10 < 10 := Nat.mod_lt n (by decide)

def digits (numbers : List Nat) : List Digit := numbers.map fun n => ⟨n % 10, mod_ten_lt n⟩

theorem one_ne_nil : digits [1] ≠ [] := by decide

theorem one_head : NoLeadingZero (digits [1]) := by decide

def sample : List Piece :=
  .text [] :: [.number
    { negative := true
      integer := digits [1]
      fraction := digits [5]
      exponent := some ⟨false, none, digits [1], one_ne_nil⟩
      integer_ne := one_ne_nil
      integer_head := one_head }] ++ [.text []]

theorem canonicalNumbers_sample :
    canonicalNumbers (encoded bytes "-1.5e1".toList) = .done (encoded bytes "-15".toList) ∧
      canonicalNumbers (encoded bytes "-".toList) ≠ .panicked :=
  ⟨(canonicalNumbers_exact.1 sample (.mk spaces_nil (.number _) spaces_nil)
      (by decide +kernel)).returned (by unfold OutOfLimits; decide +kernel),
    canonicalNumbers_exact.2 "-".toList (by decide +kernel)⟩

end Documents

section Overflow

theorem largeExponent_ne_nil : digits [1, 3, 1, 0, 7, 1] ≠ [] := by decide

def large : Literal where
  negative := false
  integer := digits [1]
  fraction := []
  exponent := some ⟨false, none, digits [1, 3, 1, 0, 7, 1], largeExponent_ne_nil⟩
  integer_ne := one_ne_nil
  integer_head := one_head

def largeElements : Nat → List Piece
  | 0 => .text [] :: [.number large] ++ [.text []]
  | n + 1 => .text [] :: [.number large] ++ .text ([] ++ [',']) :: largeElements n

def largeArray (n : Nat) : List Piece :=
  .text [] :: (.text ['['] :: largeElements n ++ [.text [']']]) ++ [.text []]

theorem largeArray_document (n : Nat) : Document (largeArray n) := by
  have helements : Derives .elements (largeElements n) := by
    induction n with
    | zero => exact .element spaces_nil (.number large) spaces_nil
    | succ n ih => exact .elements spaces_nil (.number large) spaces_nil ih
  exact .mk spaces_nil (.array helements) spaces_nil

theorem mem_largeArray {n : Nat} {l : Literal} (h : Piece.number l ∈ largeArray n) : l = large := by
  have helements : ∀ n, Piece.number l ∈ largeElements n → l = large := by
    intro n
    induction n with
    | zero => simp [largeElements]
    | succ n ih => simpa [largeElements] using fun h => h.elim id ih
  simp only [largeArray, List.cons_append, List.mem_cons, List.mem_append, reduceCtorEq,
    List.not_mem_nil, false_or, or_false] at h
  exact helements n h

theorem large_short : large.text.length < 2 ^ 29 := by decide

theorem large_storable : storable large = true := by
  rw [← Bool.not_eq_false]
  exact fun h => absurd ((capped_iff large_short).mpr h) (by decide)

theorem length_large : (encoded bytes large.plain.text).length = 131072 := by
  rw [length_encoded_plain, Literal.plain_significant]
  decide

theorem plainSize_largeArray (n : Nat) : 131072 * n ≤ plainSize (largeArray n) := by
  have helements : ∀ n more, 131072 * n ≤ plainSize (largeElements n ++ more) := by
    intro n more
    induction n with
    | zero => exact Nat.zero_le _
    | succ n ih =>
      have hlarge : (encoded bytes ((Piece.number large).mapNumber Literal.plain).chars).length =
          131072 := length_large
      rw [largeElements]
      simp only [List.cons_append, List.nil_append, plainSize_cons, hlarge]
      omega
  have hle := helements n ([.text [']']] ++ [.text []])
  simp only [largeArray, List.cons_append, plainSize_cons, List.append_assoc] at hle ⊢
  omega

theorem measurePiece_storable {piece : Piece} (state : Int × Bool)
    (h : ∀ l, piece = .number l → storable l = true) :
    ∃ changed, measurePiece state piece =
      .ok (state.1 + (encoded bytes (piece.mapNumber Literal.plain).chars).length, changed) := by
  cases piece with
  | text text => exact ⟨_, rfl⟩
  | number l => exact ⟨_, if_pos (h l rfl)⟩

/-- A measure that does not overflow is the size, which is then below 2^63. -/
theorem foldlM_measure_cases (state : Int × Bool) (hstate : state.1 < 2 ^ 63)
    (hlength : ∀ l, Piece.number l ∈ pieces → l.text.length < 2 ^ 29)
    (hstorable : ∀ l, Piece.number l ∈ pieces → storable l = true) :
    (pieces.map (token bytes)).foldlM measure state = .panicked ∨
      state.1 + plainSize pieces < 2 ^ 63 := by
  induction pieces generalizing state with
  | nil => exact .inr (by simpa [plainSize, plainPieces, chars, encoded] using hstate)
  | cons piece pieces ih =>
    obtain ⟨changed, hmeasured⟩ := measurePiece_storable state fun l hl =>
      hstorable l (hl ▸ List.mem_cons_self)
    rw [List.map_cons, List.foldlM_cons, plainSize_cons, Nat.cast_add, ← add_assoc,
      measure_piece state fun l hl => hlength l (hl ▸ List.mem_cons_self), hmeasured]
    change (i64 _ >>= _) >>= _ = _ ∨ _
    unfold i64
    split
    · rename_i hrange
      exact ih _ hrange.2 (fun l hl => hlength l (List.mem_cons_of_mem piece hl))
        fun l hl => hstorable l (List.mem_cons_of_mem piece hl)
    · exact .inl rfl

/-- Valid text whose canonical size overflows 64 bits. -/
theorem canonicalNumbers_overflows :
    canonicalNumbers (encoded bytes (chars (largeArray (2 ^ 46)))) = .panicked := by
  have hjoined : plainSize (joined (largeArray (2 ^ 46))) = plainSize (largeArray (2 ^ 46)) := by
    rw [plainSize, plainPieces, chars_joined]
    rfl
  have hmem : ∀ l, Piece.number l ∈ joined (largeArray (2 ^ 46)) → l = large := fun l hl =>
    mem_largeArray (mem_joined.mp hl)
  have hsize := plainSize_largeArray (2 ^ 46)
  rw [canonicalNumbers, tokens_document (largeArray_document _), Checked.done_bind]
  rcases foldlM_measure_cases (0, false) (by decide)
      (fun l hl => hmem l hl ▸ large_short) (fun l hl => hmem l hl ▸ large_storable) with h | h
  · rw [h]
    rfl
  · rw [hjoined] at h
    omega

end Overflow

end EventStore.Numbers
