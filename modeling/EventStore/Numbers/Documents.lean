import EventStore.Numbers.Ports

/-!
What Rust, Go and TypeScript make of a whole document: each of them returns the document with
every number in its plain form, or refuses it, and for the same reason.
-/
namespace EventStore.Numbers

open Encodings JsonNumbers JsonGrammar

def changes (l : Literal) : Bool := l.exponent.isSome || (l.negative && l.isZero)

variable {l : Literal}

theorem plain_of_not_changes (h : changes l = false) : l.plain = l := by
  rw [changes, Bool.or_eq_false_iff, Option.isSome_eq_false_iff, Option.isNone_iff_eq_none] at h
  refine Literal.plain_eq_self h.1 fun hnegative => ?_
  rw [hnegative, Bool.true_and] at h
  exact h.2

def plainPieces (pieces : List Piece) : List Piece := pieces.map (Piece.mapNumber Literal.plain)

def plainSize (pieces : List Piece) : Nat := (encoded bytes (chars (plainPieces pieces))).length

def storablePieces (pieces : List Piece) : Except Error (List Piece) :=
  match (numbers pieces).find? fun l => !storable l with
  | some l => .error (outOfRange bytes (encoded bytes l.text))
  | none =>
    if maxOutcomeBytes < plainSize pieces then
      .error (.outcomeTooLarge "rejection" (plainSize pieces))
    else .ok (plainPieces pieces)

def measurePiece (state : Int × Bool) : Piece → Except Error (Int × Bool)
  | .text chars => .ok (state.1 + (encoded bytes chars).length, state.2)
  | .number l =>
    if storable l then
      .ok (state.1 + (encoded bytes l.plain.text).length, state.2 || changes l)
    else .error (outOfRange bytes (encoded bytes l.text))

theorem numbers_cons_text (text : List Char) (pieces : List Piece) :
    numbers (.text text :: pieces) = numbers pieces := rfl

theorem numbers_cons_number (l : Literal) (pieces : List Piece) :
    numbers (.number l :: pieces) = l :: numbers pieces := rfl

theorem plainSize_cons (piece : Piece) (pieces : List Piece) :
    plainSize (piece :: pieces) =
      (encoded bytes (piece.mapNumber Literal.plain).chars).length + plainSize pieces := by
  rw [plainSize, plainPieces, List.map_cons, chars_cons, encoded_append, List.length_append]
  rfl

/-- The first pass over a document: it stops at the first number out of range. -/
theorem foldlM_measurePiece (pieces : List Piece) (state : Int × Bool) :
    pieces.foldlM measurePiece state =
      match (numbers pieces).find? fun l => !storable l with
      | some l => .error (outOfRange bytes (encoded bytes l.text))
      | none => .ok (state.1 + plainSize pieces, state.2 || (numbers pieces).any changes) := by
  induction pieces generalizing state with
  | nil => simp [numbers, plainSize, plainPieces, chars, encoded, pure, Except.pure]
  | cons piece pieces ih =>
    rw [List.foldlM_cons, plainSize_cons]
    cases piece with
    | text text =>
      rw [numbers_cons_text]
      change pieces.foldlM measurePiece _ = _
      rw [ih]
      simp only [Nat.cast_add, add_assoc]
      rfl
    | number l =>
      rw [numbers_cons_number, measurePiece]
      cases h : storable l with
      | false => simp [h, bind, Except.bind]
      | true =>
        rw [List.find?_cons_of_neg (by simp [h]), List.any_cons, if_pos rfl]
        change pieces.foldlM measurePiece _ = _
        rw [ih]
        simp only [Nat.cast_add, add_assoc, Bool.or_assoc]
        rfl

theorem foldlM_flushText (run : List Char) (state : Int × Bool) :
    (flushText run).foldlM measurePiece state =
      .ok (state.1 + (encoded bytes run).length, state.2) := by
  cases run with
  | nil => simp [flushText, encoded, pure, Except.pure]
  | cons c run => rfl

theorem foldlM_gather (pieces : List Piece) (run : List Char) (state : Int × Bool) :
    ((gather run pieces).1 ++ flushText (gather run pieces).2).foldlM measurePiece state =
      pieces.foldlM measurePiece (state.1 + (encoded bytes run).length, state.2) := by
  induction pieces generalizing run state with
  | nil => exact foldlM_flushText run state
  | cons piece pieces ih =>
    cases piece with
    | text text =>
      rw [gather, ih, List.foldlM_cons, encoded_append, List.length_append, Nat.cast_add,
        ← add_assoc]
      rfl
    | number l =>
      rw [gather, List.append_assoc, List.foldlM_append, foldlM_flushText, List.cons_append,
        List.foldlM_cons]
      change (measurePiece _ _ >>= _) = _
      congr 1
      funext next
      rw [ih]
      simp [encoded]

/-- Joining texts changes nothing that is measured. -/
theorem foldlM_joined (pieces : List Piece) :
    (joined pieces).foldlM measurePiece (0, false) = pieces.foldlM measurePiece (0, false) := by
  rw [joined, foldlM_gather]
  rfl

theorem map_flushText (f : Literal → Literal) (run : List Char) :
    (flushText run).map (Piece.mapNumber f) = flushText run := by
  cases run <;> rfl

theorem chars_flushText (run : List Char) : chars (flushText run) = run := by
  cases run with
  | nil => rfl
  | cons c run => simp [flushText, chars, Piece.chars]

theorem chars_gather (f : Literal → Literal) (pieces : List Piece) (run : List Char) :
    chars (((gather run pieces).1 ++ flushText (gather run pieces).2).map (Piece.mapNumber f)) =
      run ++ chars (pieces.map (Piece.mapNumber f)) := by
  induction pieces generalizing run with
  | nil =>
    rw [gather, List.nil_append, map_flushText, chars_flushText]
    exact (List.append_nil run).symm
  | cons piece pieces ih =>
    cases piece with
    | text text =>
      rw [gather, ih, List.append_assoc]
      rfl
    | number l =>
      rw [gather, List.append_assoc, List.map_append, map_flushText, chars_append,
        chars_flushText, List.cons_append, List.map_cons, chars_cons, ih]
      rfl

/-- Joining texts changes nothing that is written. -/
theorem chars_joined (f : Literal → Literal) (pieces : List Piece) :
    chars ((joined pieces).map (Piece.mapNumber f)) = chars (pieces.map (Piece.mapNumber f)) :=
  chars_gather f pieces []

theorem mem_flushText {run : List Char} : ¬Piece.number l ∈ flushText run := by
  cases run <;> simp [flushText]

variable {pieces : List Piece}

theorem mem_gather {run : List Char} :
    Piece.number l ∈ (gather run pieces).1 ↔ Piece.number l ∈ pieces := by
  induction pieces generalizing run with
  | nil => rfl
  | cons piece pieces ih =>
    cases piece with
    | text text => simp [gather, ih]
    | number l' => simp [gather, ih, mem_flushText]

theorem mem_joined : Piece.number l ∈ joined pieces ↔ Piece.number l ∈ pieces := by
  simp [joined, mem_gather, mem_flushText]

theorem mem_numbers : l ∈ numbers pieces ↔ Piece.number l ∈ pieces := by
  induction pieces with
  | nil => simp [numbers]
  | cons piece pieces ih =>
    cases piece with
    | text text => simp [numbers_cons_text, ih]
    | number l' => simp [numbers_cons_number, ih]

theorem plainPieces_of_not_changes (h : (numbers pieces).any changes = false) :
    plainPieces pieces = pieces := by
  rw [List.any_eq_false] at h
  refine (List.map_congr_left fun piece hpiece => ?_).trans (List.map_id pieces)
  cases piece with
  | text text => rfl
  | number l =>
    have hl := h l (mem_numbers.mpr hpiece)
    rw [Piece.mapNumber, plain_of_not_changes (Bool.not_eq_true _ ▸ hl)]
    rfl

theorem length_text_le (h : Piece.number l ∈ pieces) : l.text.length ≤ (chars pieces).length := by
  induction pieces with
  | nil => cases h
  | cons piece pieces ih =>
    rw [chars_cons, List.length_append]
    rcases List.mem_cons.mp h with rfl | h
    · exact Nat.le_add_right _ _
    · exact (ih h).trans (Nat.le_add_left _ _)

theorem length_le_encoded {α : Type} {E : AsciiEncoding α} (text : List Char) :
    text.length ≤ (encoded E text).length := by
  induction text with
  | nil => exact Nat.zero_le _
  | cons c text ih =>
    have hpos := List.length_pos_iff.mpr (E.encode_ne c)
    rw [encoded_cons, List.length_append, List.length_cons]
    omega

theorem length_plain_le (h : storable l = true) :
    (encoded bytes l.plain.text).length ≤ 2 ^ 18 * l.text.length := by
  obtain ⟨c, digits, htext, -⟩ := text_head l
  rw [storable, Literal.length_plain_fraction, Bool.and_eq_true, decide_eq_true_eq,
    decide_eq_true_eq] at h
  rw [length_encoded_plain, htext, List.length_cons]
  split <;> split <;> omega

theorem length_encodeChar_le (c : Char) : (bytes.encode c).length ≤ 4 :=
  (String.length_utf8EncodeChar c).trans_le (Char.utf8Size_le_four c)

theorem length_encoded_le (text : List Char) :
    (encoded bytes text).length ≤ 2 ^ 18 * text.length := by
  induction text with
  | nil => exact Nat.le_refl _
  | cons c text ih =>
    have hc := length_encodeChar_le c
    rw [encoded_cons, List.length_append, List.length_cons]
    omega

variable {piece : Piece}

theorem length_piece_le (h : ∀ l, piece = .number l → storable l = true) :
    (encoded bytes (piece.mapNumber Literal.plain).chars).length ≤ 2 ^ 18 * piece.chars.length := by
  cases piece with
  | text text => exact length_encoded_le text
  | number l => exact length_plain_le (h l rfl)

theorem plainSize_le (h : ∀ l, Piece.number l ∈ pieces → storable l = true) :
    plainSize pieces ≤ 2 ^ 18 * (chars pieces).length := by
  induction pieces with
  | nil => exact Nat.le_refl _
  | cons piece pieces ih =>
    have hpiece := length_piece_le fun l hl => h l (hl ▸ List.mem_cons_self)
    have hpieces := ih fun l hl => h l (List.mem_cons_of_mem piece hl)
    rw [plainSize_cons, chars_cons, List.length_append]
    omega

section Measured

variable {α : Type} {E : AsciiEncoding α}

theorem foldlM_tokens {visit : Int × Bool → Token α → Except Error (Int × Bool)}
    (h : ∀ piece ∈ pieces, ∀ state, visit state (token E piece) = measurePiece state piece)
    (state : Int × Bool) :
    (pieces.map (token E)).foldlM visit state = pieces.foldlM measurePiece state := by
  induction pieces generalizing state with
  | nil => rfl
  | cons piece pieces ih =>
    rw [List.forall_mem_cons] at h
    rw [List.map_cons, List.foldlM_cons, List.foldlM_cons, h.1]
    congr 1
    funext next
    exact ih h.2 next

theorem outOfRange_text (l : Literal) :
    outOfRange E (encoded E l.text) = outOfRange bytes (encoded bytes l.text) := by
  have hascii : ∀ c ∈ l.text, c.toNat < 128 := fun c hc =>
    ascii_of_isNumberChar (isNumberChar_text hc)
  have hshown : ∀ {β : Type} (F : AsciiEncoding β) {text : List Char},
      (∀ c ∈ text, c.toNat < 128) →
      (text.map (ascii F)).map (fun a => Char.ofNat (F.code a)) = text := by
    intro β F text htext
    rw [List.map_map]
    refine (List.map_congr_left fun c hc => ?_).trans (List.map_id text)
    rw [Function.comp_apply, code_ascii (htext c hc), Char.ofNat_toNat]
    rfl
  have htake : ∀ c ∈ l.text.take 64, c.toNat < 128 := fun c hc => hascii c (List.mem_of_mem_take hc)
  simp only [outOfRange, shown, encoded_ascii hascii, List.length_map, ← List.map_take,
    hshown E hascii, hshown bytes hascii, hshown E htake, hshown bytes htake]

theorem encoded_chars (pieces : List Piece) :
    encoded E (chars pieces) = pieces.flatMap fun piece => encoded E piece.chars := by
  rw [encoded, chars, List.flatMap_assoc]
  rfl

theorem flatMap_tokens {write : Token α → List α} (htext : ∀ text, write (.other text) = text)
    (hnumber : ∀ l, Piece.number l ∈ pieces →
      write (.number (encoded E l.text)) = encoded E l.plain.text) :
    ((joined pieces).map (token E)).flatMap write = encoded E (chars (plainPieces pieces)) := by
  have hpiece : ∀ piece ∈ joined pieces, write (token E piece) =
      encoded E (piece.mapNumber Literal.plain).chars := by
    intro piece hpiece
    cases piece with
    | text text => exact htext _
    | number l => exact hnumber l (mem_joined.mp hpiece)
  rw [plainPieces, ← chars_joined, encoded_chars, List.flatMap_map, List.flatMap_map]
  exact List.flatMap_congr hpiece

/-- What a document comes to, once its measure is known. -/
theorem storablePieces_of_measure {size : Int} {changed : Bool}
    (h : (joined pieces).foldlM measurePiece (0, false) = .ok (size, changed)) :
    size = plainSize pieces ∧ (∀ l, Piece.number l ∈ pieces → storable l = true) ∧
      (changed = false → plainPieces pieces = pieces) ∧
      storablePieces pieces =
        if maxOutcomeBytes < plainSize pieces then
          .error (.outcomeTooLarge "rejection" (plainSize pieces))
        else .ok (plainPieces pieces) := by
  rw [foldlM_joined, foldlM_measurePiece] at h
  unfold storablePieces
  cases hfind : (numbers pieces).find? fun l => !storable l with
  | some l =>
    rw [hfind] at h
    cases h
  | none =>
    rw [hfind, zero_add, Bool.false_or] at h
    obtain ⟨rfl, rfl⟩ := Prod.mk.inj (Except.ok.inj h)
    refine ⟨rfl, fun l hl => ?_, plainPieces_of_not_changes, rfl⟩
    have hnone := List.find?_eq_none.mp hfind l (mem_numbers.mpr hl)
    simpa using hnone

theorem storablePieces_of_measure_error {error : Error}
    (h : (joined pieces).foldlM measurePiece (0, false) = .error error) :
    storablePieces pieces = .error error := by
  rw [foldlM_joined, foldlM_measurePiece] at h
  unfold storablePieces
  cases hfind : (numbers pieces).find? fun l => !storable l with
  | some l =>
    rw [hfind] at h
    exact congrArg Except.error (Except.error.inj h)
  | none =>
    rw [hfind] at h
    cases h

/-- What a port returns: the text it writes, or the document where no number changes. -/
theorem foldlM_rewritten (write : Token α → List α)
    {visit : Int × Bool → Token α → Except Error (Int × Bool)}
    {finish : Int × Bool → Except Error (List α)}
    (hvisit : ∀ piece ∈ joined pieces, ∀ state,
      visit state (token E piece) = measurePiece state piece)
    (htext : ∀ text, write (.other text) = text)
    (hnumber : ∀ l, Piece.number l ∈ pieces → storable l = true →
      write (.number (encoded E l.text)) = encoded E l.plain.text)
    (hfinish : ∀ changed, (∀ l, Piece.number l ∈ pieces → storable l = true) →
      finish (plainSize pieces, changed) =
        if maxOutcomeBytes < plainSize pieces then
          .error (.outcomeTooLarge "rejection" (plainSize pieces))
        else if changed then .ok (((joined pieces).map (token E)).flatMap write)
        else .ok (encoded E (chars pieces))) :
    (((joined pieces).map (token E)).foldlM visit (0, false) >>= finish) =
      (storablePieces pieces).map fun result => encoded E (chars result) := by
  rw [foldlM_tokens hvisit]
  cases hfold : (joined pieces).foldlM measurePiece (0, false) with
  | error error =>
    rw [storablePieces_of_measure_error hfold]
    rfl
  | ok state =>
    obtain ⟨size, changed⟩ := state
    obtain ⟨rfl, hstorable, hchanged, hresult⟩ := storablePieces_of_measure hfold
    change finish (plainSize pieces, changed) = _
    rw [hfinish changed hstorable, hresult,
      flatMap_tokens htext fun l hl => hnumber l hl (hstorable l hl)]
    split
    · rfl
    · cases changed with
      | true => rfl
      | false =>
        rw [hchanged rfl]
        rfl

end Measured

namespace Go

theorem visitSize_token (hlength : ∀ l, piece = .number l → l.text.length < 2 ^ 29)
    (state : Int × Bool) : visitSize state (token bytes piece) = measurePiece state piece := by
  cases piece with
  | text text => rfl
  | number l =>
    have hl := hlength l rfl
    rw [token, visitSize, JsonNumber.parse_text, JsonNumber.parsed_check hl, measurePiece,
      any_isExponentMark, JsonNumber.parsed_zero]
    cases h : storable l with
    | false => rfl
    | true =>
      rw [if_pos rfl, if_pos rfl, JsonNumber.parsed_canonicalLength hl h, changes,
        ← Bool.or_assoc]
      rfl

/-- Go returns the plain form of a document. -/
theorem canonicalNumbers_document (h : Document pieces) (hlength : (chars pieces).length < 2 ^ 29) :
    canonicalNumbers (encoded bytes (chars pieces)) =
      (storablePieces pieces).map fun result => encoded bytes (chars result) := by
  have hshort : ∀ l, Piece.number l ∈ pieces → l.text.length < 2 ^ 29 := fun l hl =>
    (length_text_le hl).trans_lt hlength
  have hscan : scanJSONNumbers (encoded bytes (chars pieces)) =
      (joined pieces).map (token bytes) := by
    rw [scanJSONNumbers, scan_document (fun _ => rfl) h, Option.getD_some]
  rw [canonicalNumbers, canonicalNumbersSize, bind_assoc, hscan]
  refine foldlM_rewritten appendToken (fun piece hpiece =>
    visitSize_token fun l hl => hshort l (mem_joined.mp (hl ▸ hpiece))) (fun _ => rfl) ?_ ?_
  · intro l hl hstorable
    rw [appendToken, JsonNumber.parse_text,
      JsonNumber.parsed_appendCanonical (hshort l hl) hstorable]
  · intro changed hstorable
    have hsize := plainSize_le hstorable
    have hmin : (min (plainSize pieces : Int) (2 ^ 63 - 1)).toNat = plainSize pieces := by omega
    change (if maxOutcomeBytes < (min (plainSize pieces : Int) (2 ^ 63 - 1)).toNat then _
      else _) = _
    rw [hmin]
    rfl

end Go

namespace TypeScript

theorem utf8Size_eq (c : Char) :
    c.utf8Size = if c.toNat < 0x80 then 1 else if c.toNat < 0x800 then 2
      else if c.toNat < 0x10000 then 3 else 4 := by
  simp only [Char.utf8Size, UInt32.le_iff_toNat_le]
  change (if c.toNat ≤ 0x7f then 1 else if c.toNat ≤ 0x7ff then 2
    else if c.toNat ≤ 0xffff then 3 else 4) = _
  split_ifs <;> omega

theorem utf8Length_append_char (c : Char) (rest : List UInt16) :
    utf8Length (utf16Char c ++ rest) = c.utf8Size + utf8Length rest := by
  rw [utf8Size_eq]
  rcases utf16Char_cases c with
    ⟨unit, hunits, -, hhigh, hunit⟩ | ⟨high, low, hunits, hhigh, hlow, hc⟩
  · have hlt := unit.toNat_lt
    rw [hunits, List.singleton_append, ← hunit]
    cases rest with
    | nil =>
      simp only [utf8Length]
      split_ifs <;> omega
    | cons next rest =>
      simp only [utf8Length, hhigh, Bool.false_and, Bool.false_eq_true, if_false]
      split_ifs <;> omega
  · have hpair : 0x10000 ≤ c.toNat ∧ 0xd800 ≤ high.toNat := by
      simp only [isHighSurrogate, isLowSurrogate, Bool.and_eq_true, decide_eq_true_eq,
        pairCodePoint] at hhigh hlow hc
      omega
    rw [hunits]
    simp only [List.cons_append, List.nil_append, utf8Length, hhigh, hlow, Bool.and_self, if_true]
    split_ifs <;> omega

theorem utf8Length_encoded (text : List Char) :
    utf8Length (encoded units text) = (encoded bytes text).length := by
  induction text with
  | nil => rfl
  | cons c text ih =>
    rw [encoded_cons, encoded_cons, List.length_append]
    change utf8Length (utf16Char c ++ encoded units text) = (String.utf8EncodeChar c).length + _
    rw [utf8Length_append_char, ih, String.length_utf8EncodeChar]

theorem length_encoded_units : (encoded units l.text).length = (encoded bytes l.text).length := by
  have hascii : ∀ c ∈ l.text, c.toNat < 128 := fun c hc =>
    ascii_of_isNumberChar (isNumberChar_text hc)
  rw [encoded_ascii hascii, encoded_ascii hascii, List.length_map, List.length_map]

theorem measure_token (hlength : ∀ l, piece = .number l → l.text.length < 2 ^ 29)
    (state : Int × Bool) : measure state (token units piece) = measurePiece state piece := by
  cases piece with
  | text text => rw [token, measure, utf8Length_encoded, measurePiece]
  | number l =>
    have hl := hlength l rfl
    rw [token, measure, NumberLiteral.new_text, NumberLiteral.parsed_check hl, measurePiece,
      any_isExponentMark, NumberLiteral.parsed_isZero, outOfRange_text]
    cases h : storable l with
    | false => rfl
    | true =>
      rw [if_pos rfl, if_pos rfl, NumberLiteral.parsed_canonicalLength hl h, changes,
        ← Bool.or_assoc, length_encoded_units]
      rfl

/-- TypeScript returns the plain form of a document. -/
theorem canonicalNumbers_document (h : Document pieces) (hlength : (chars pieces).length < 2 ^ 29) :
    canonicalNumbers (encoded units (chars pieces)) =
      (storablePieces pieces).map fun result => encoded units (chars result) := by
  have hshort : ∀ l, Piece.number l ∈ pieces → l.text.length < 2 ^ 29 := fun l hl =>
    (length_text_le hl).trans_lt hlength
  have hscan : tokens (encoded units (chars pieces)) = (joined pieces).map (token units) := by
    rw [tokens, scan_document (fun _ => rfl) h, Option.getD_some]
  rw [canonicalNumbers, hscan]
  refine foldlM_rewritten writeToken (fun piece hpiece =>
    measure_token fun l hl => hshort l (mem_joined.mp (hl ▸ hpiece))) (fun _ => rfl) ?_ ?_
  · intro l hl hstorable
    rw [writeToken, NumberLiteral.new_text, NumberLiteral.parsed_canonical (hshort l hl) hstorable]
  · intro changed _
    change (if (maxOutcomeBytes : Int) < plainSize pieces then _ else _) = _
    simp only [Nat.cast_lt]
    rfl

end TypeScript

section Rust

def Checked.ofExcept {α : Type} : Except Error α → Checked α
  | .ok a => .done a
  | .error error => .refused error

variable {state : Int × Bool}

theorem measurePiece_le {next : Int × Bool} (h : measurePiece state piece = .ok next) :
    state.1 ≤ next.1 ∧ next.1 ≤ state.1 + 2 ^ 18 * piece.chars.length := by
  cases piece with
  | text text =>
    have hlength := length_encoded_le text
    rw [measurePiece] at h
    obtain rfl := Except.ok.inj h
    simp only [Piece.chars]
    omega
  | number l =>
    rw [measurePiece] at h
    split at h
    · rename_i hstorable
      have hlength := length_plain_le hstorable
      obtain rfl := Except.ok.inj h
      simp only [Piece.chars]
      omega
    · cases h

theorem measure_piece (state : Int × Bool)
    (hlength : ∀ l, piece = .number l → l.text.length < 2 ^ 29) :
    measure state (token bytes piece) =
      Checked.ofExcept (measurePiece state piece) >>= fun next =>
        i64 next.1 >>= fun size => .done (size, next.2) := by
  cases piece with
  | text text => rfl
  | number l =>
    have hl := hlength l rfl
    rw [token, measure, parse_text hl, Checked.done_bind, parsed_check hl, measurePiece,
      any_isExponentMark, parsed_isZero]
    cases h : storable l with
    | false => rfl
    | true =>
      rw [if_pos rfl, if_pos rfl, Checked.done_bind, parsed_canonicalLength hl h,
        Checked.done_bind, changes, ← Bool.or_assoc]
      rfl

theorem measure_token (hstate : 0 ≤ state.1)
    (hbound : state.1 + 2 ^ 18 * piece.chars.length < 2 ^ 63)
    (hlength : ∀ l, piece = .number l → l.text.length < 2 ^ 29) :
    measure state (token bytes piece) = .ofExcept (measurePiece state piece) := by
  rw [measure_piece state hlength]
  cases h : measurePiece state piece with
  | error error => rfl
  | ok next =>
    have hsize := measurePiece_le h
    change i64 next.1 >>= _ = _
    rw [i64_eq (by omega)]
    rfl

theorem foldlM_measure (hstate : 0 ≤ state.1)
    (hbound : state.1 + 2 ^ 18 * (chars pieces).length < 2 ^ 63)
    (hlength : ∀ l, Piece.number l ∈ pieces → l.text.length < 2 ^ 29) :
    (pieces.map (token bytes)).foldlM measure state =
      .ofExcept (pieces.foldlM measurePiece state) := by
  induction pieces generalizing state with
  | nil => rfl
  | cons piece pieces ih =>
    rw [chars_cons, List.length_append, Nat.cast_add] at hbound
    rw [List.map_cons, List.foldlM_cons, List.foldlM_cons,
      measure_token hstate (by omega) fun l hl => hlength l (hl ▸ List.mem_cons_self)]
    cases hnext : measurePiece state piece with
    | error error => rfl
    | ok next =>
      have hsize := measurePiece_le hnext
      exact ih (by omega) (by omega) fun l hl => hlength l (List.mem_cons_of_mem piece hl)

theorem head_utf8EncodeChar {c : Char} {a : UInt8} (h : (String.utf8EncodeChar c).head? = some a) :
    a.toNat < 0x80 ∨ 0xc0 ≤ a.toNat := by
  have hbound : c.val.toNat < 0x110000 := toNat_lt c
  simp only [String.utf8EncodeChar] at h
  generalize c.val.toNat = v at hbound h
  split at h
  · obtain rfl := Option.some.inj h
    rw [UInt8.toNat_ofNat']
    omega
  split at h
  · obtain rfl := Option.some.inj h
    rw [UInt8.toNat_ofNat']
    omega
  split at h
  · obtain rfl := Option.some.inj h
    rw [UInt8.toNat_ofNat']
    omega
  · obtain rfl := Option.some.inj h
    rw [UInt8.toNat_ofNat']
    omega

theorem charBoundary_encoded (text : List Char) : charBoundary (encoded bytes text) = true := by
  cases text with
  | nil => rfl
  | cons c text =>
    obtain ⟨a, as, has⟩ := List.exists_cons_of_ne_nil (bytes.encode_ne c)
    have ha := head_utf8EncodeChar (c := c) (a := a) (by
      rw [← List.head?_cons (l := as), ← has]
      rfl)
    rw [encoded_cons, has, List.cons_append, charBoundary, List.head?_cons, Option.all_some]
    simpa using ha

theorem tokens_document (h : Document pieces) :
    tokens (encoded bytes (chars pieces)) = .done ((joined pieces).map (token bytes)) := by
  rw [tokens, scan_document charBoundary_encoded h]

theorem mapM_writeToken (hlength : ∀ l, Piece.number l ∈ pieces → l.text.length < 2 ^ 29)
    (hstorable : ∀ l, Piece.number l ∈ pieces → storable l = true) :
    (pieces.map (token bytes)).mapM writeToken =
      .done (pieces.map fun piece => encoded bytes (piece.mapNumber Literal.plain).chars) := by
  induction pieces with
  | nil => rfl
  | cons piece pieces ih =>
    have hpiece : writeToken (token bytes piece) =
        .done (encoded bytes (piece.mapNumber Literal.plain).chars) := by
      cases piece with
      | text text => rfl
      | number l =>
        have hl := hlength l List.mem_cons_self
        rw [token, writeToken, parse_text hl, Checked.done_bind,
          parsed_writeCanonical hl (hstorable l List.mem_cons_self)]
        rfl
    rw [List.map_cons, List.mapM_cons, hpiece, Checked.done_bind,
      ih (fun l hl => hlength l (List.mem_cons_of_mem piece hl))
        fun l hl => hstorable l (List.mem_cons_of_mem piece hl)]
    rfl

/-- What Rust returns once a document has been measured. -/
theorem canonicalNumbers_of_measure (h : Document pieces)
    (hshort : ∀ l, Piece.number l ∈ pieces → l.text.length < 2 ^ 29)
    (hfold : (joined pieces).foldlM measurePiece (0, false) = .ok state)
    (hmeasure : ((joined pieces).map (token bytes)).foldlM measure (0, false) = .done state) :
    canonicalNumbers (encoded bytes (chars pieces)) =
      .ofExcept ((storablePieces pieces).map fun result => encoded bytes (chars result)) := by
  rw [canonicalNumbers, tokens_document h, Checked.done_bind, hmeasure]
  obtain ⟨size, changed⟩ := state
  obtain ⟨rfl, hstorable, hchanged, hresult⟩ := storablePieces_of_measure hfold
  have hsize : (if (plainSize pieces : Int) < 0 then 2 ^ 64 - 1
      else (plainSize pieces : Int).toNat) = plainSize pieces := by
    rw [if_neg (by omega), Int.toNat_natCast]
  have hwritten := mapM_writeToken (fun l hl => hshort l (mem_joined.mp hl))
    fun l hl => hstorable l (mem_joined.mp hl)
  rw [hresult]
  change (if maxOutcomeBytes < (if (plainSize pieces : Int) < 0 then 2 ^ 64 - 1
      else (plainSize pieces : Int).toNat) then
      Checked.refused (Error.outcomeTooLarge "rejection" (if (plainSize pieces : Int) < 0 then
        2 ^ 64 - 1 else (plainSize pieces : Int).toNat))
    else if changed = true then
      ((joined pieces).map (token bytes)).mapM writeToken >>= fun parts => .done parts.flatten
    else Checked.done (encoded bytes (chars pieces))) = _
  rw [hsize, hwritten, Checked.done_bind]
  split
  · rfl
  · cases changed with
    | true =>
      change Checked.done _ = Checked.done (encoded bytes (chars (plainPieces pieces)))
      rw [plainPieces, ← chars_joined, encoded_chars, List.flatMap_map]
      rfl
    | false =>
      rw [hchanged rfl]
      rfl

/-- Rust returns the plain form of a document. -/
theorem canonicalNumbers_document (h : Document pieces) (hlength : (chars pieces).length < 2 ^ 29) :
    canonicalNumbers (encoded bytes (chars pieces)) =
      .ofExcept ((storablePieces pieces).map fun result => encoded bytes (chars result)) := by
  have hshort : ∀ l, Piece.number l ∈ pieces → l.text.length < 2 ^ 29 := fun l hl =>
    (length_text_le hl).trans_lt hlength
  have hchars : (chars (joined pieces)).length = (chars pieces).length := by
    have hid : ∀ parts : List Piece, parts.map (Piece.mapNumber id) = parts := fun parts =>
      (List.map_congr_left fun piece _ => by cases piece <;> rfl).trans (List.map_id parts)
    have hjoined := chars_joined id pieces
    rw [hid, hid] at hjoined
    rw [hjoined]
  have hmeasure : ((joined pieces).map (token bytes)).foldlM measure (0, false) =
      .ofExcept ((joined pieces).foldlM measurePiece (0, false)) := by
    refine foldlM_measure le_rfl ?_ fun l hl => hshort l (mem_joined.mp hl)
    rw [hchars]
    omega
  cases hfold : (joined pieces).foldlM measurePiece (0, false) with
  | error error =>
    rw [canonicalNumbers, tokens_document h, Checked.done_bind, hmeasure, hfold,
      storablePieces_of_measure_error hfold]
    rfl
  | ok state =>
    rw [hfold] at hmeasure
    exact canonicalNumbers_of_measure h hshort hfold hmeasure

theorem measurePiece_of_done (hshort : ∀ l, Piece.number l ∈ pieces → l.text.length < 2 ^ 29)
    {next : Int × Bool} (h : (pieces.map (token bytes)).foldlM measure state = .done next) :
    pieces.foldlM measurePiece state = .ok next := by
  induction pieces generalizing state with
  | nil =>
    obtain rfl := Checked.done.inj h
    rfl
  | cons piece pieces ih =>
    rw [List.map_cons, List.foldlM_cons,
      measure_piece state fun l hl => hshort l (hl ▸ List.mem_cons_self)] at h
    rw [List.foldlM_cons]
    cases hpiece : measurePiece state piece with
    | error error =>
      rw [hpiece] at h
      cases h
    | ok measured =>
      rw [hpiece] at h
      change (i64 measured.1 >>= _) >>= _ = _ at h
      unfold i64 at h
      split at h
      · exact ih (fun l hl => hshort l (List.mem_cons_of_mem piece hl)) h
      · cases h

/-- What Rust returns for a document, however long, is its plain form. -/
theorem canonicalNumbers_eq_done (h : Document pieces)
    (hshort : ∀ l, Piece.number l ∈ pieces → l.text.length < 2 ^ 29) {text : List UInt8}
    (hdone : canonicalNumbers (encoded bytes (chars pieces)) = .done text) :
    text = encoded bytes (chars (plainPieces pieces)) := by
  cases hmeasure : ((joined pieces).map (token bytes)).foldlM measure (0, false) with
  | refused error =>
    rw [canonicalNumbers, tokens_document h, Checked.done_bind, hmeasure] at hdone
    cases hdone
  | panicked =>
    rw [canonicalNumbers, tokens_document h, Checked.done_bind, hmeasure] at hdone
    cases hdone
  | done state =>
    obtain ⟨size, changed⟩ := state
    have hfold := measurePiece_of_done (fun l hl => hshort l (mem_joined.mp hl)) hmeasure
    rw [canonicalNumbers_of_measure h hshort hfold hmeasure,
      (storablePieces_of_measure hfold).2.2.2] at hdone
    split at hdone
    · cases hdone
    · exact (Checked.done.inj hdone).symm

end Rust

end EventStore.Numbers
