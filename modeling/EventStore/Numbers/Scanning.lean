import EventStore.Lib.JsonGrammar
import EventStore.Core.Numbers

/-!
What the scan of a valid document finds: exactly the number literals the grammar derives, and the
text between them, in every encoding that keeps ASCII characters apart from all others.
-/
namespace EventStore.Numbers

open Encodings JsonNumbers JsonGrammar

variable {text : List Char} {c : Char}

section Units

variable {α : Type} (E : AsciiEncoding α)

def encoded (text : List Char) : List α := text.flatMap E.encode

variable {E}

theorem encoded_append (text more : List Char) :
    encoded E (text ++ more) = encoded E text ++ encoded E more := by
  simp [encoded]

theorem encoded_cons (c : Char) (text : List Char) :
    encoded E (c :: text) = E.encode c ++ encoded E text := rfl

theorem encode_eq_ascii (hc : c.toNat < 128) : E.encode c = [ascii E c] :=
  E.encode_ascii c hc

theorem encoded_ascii_cons (hc : c.toNat < 128) (text : List Char) :
    encoded E (c :: text) = ascii E c :: encoded E text := by
  rw [encoded_cons, encode_eq_ascii hc, List.singleton_append]

theorem encoded_ascii (h : ∀ c ∈ text, c.toNat < 128) : encoded E text = text.map (ascii E) := by
  induction text with
  | nil => rfl
  | cons c text ih =>
    rw [encoded_ascii_cons (h c List.mem_cons_self), List.map_cons,
      ih fun d hd => h d (List.mem_cons_of_mem c hd)]

theorem code_ascii (hc : c.toNat < 128) : E.code (ascii E c) = c.toNat :=
  E.code_unit c.toNat hc

theorem is_ascii {d : Char} (hc : c.toNat < 128) : is E d (ascii E c) = decide (c = d) := by
  rw [is, code_ascii hc]
  exact decide_eq_decide.mpr Char.toNat_inj

theorem isDigit_ascii (hc : c.toNat < 128) : isDigit E (ascii E c) = c.isDigit := by
  rw [isDigit, code_ascii hc]
  rfl

theorem isNumberUnit_ascii (hc : c.toNat < 128) : isNumberUnit E (ascii E c) = isNumberChar c := by
  simp only [isNumberUnit, isNumberChar, isDigit_ascii hc, is_ascii hc]

theorem is_of_le (hc : c.toNat < 128) {a : α} (ha : 128 ≤ E.code a) : is E c a = false := by
  simp only [is, decide_eq_false_iff_not]
  omega

theorem isDigit_of_le {a : α} (ha : 128 ≤ E.code a) : isDigit E a = false := by
  have : '9'.toNat < 128 := by decide
  simp only [isDigit, Bool.and_eq_false_iff, decide_eq_false_iff_not]
  omega

theorem isNumberUnit_of_le {a : α} (ha : 128 ≤ E.code a) : isNumberUnit E a = false := by
  simp [isNumberUnit, isDigit_of_le ha, is_of_le _ ha]

end Units

section Scan

variable {α : Type} {E : AsciiEncoding α} {cut : List α → Bool} {inString : Bool}
  {run rest : List α}

theorem scan_unit {a : α} (hescape : (inString && is E '\\' a) = false)
    (hquote : is E '"' a = false)
    (hnumber : (!inString && (is E '-' a || isDigit E a)) = false) :
    scan E cut inString run (a :: rest) = scan E cut inString (run ++ [a]) rest := by
  rw [scan]
  simp only [hescape, hquote, hnumber, if_false, Bool.false_eq_true]

theorem scan_quote :
    scan E cut inString run (ascii E '"' :: rest) =
      scan E cut (!inString) (run ++ [ascii E '"']) rest := by
  rw [scan]
  simp [is_ascii]

theorem scan_escape {a : α} :
    scan E cut true run (ascii E '\\' :: a :: rest) =
      scan E cut true (run ++ [ascii E '\\', a]) rest := by
  rw [scan]
  simp [is_ascii]

theorem scan_units {units : List α} (h : ∀ a ∈ units, 128 ≤ E.code a) :
    scan E cut inString run (units ++ rest) = scan E cut inString (run ++ units) rest := by
  induction units generalizing run with
  | nil => simp
  | cons a units ih =>
    have ha := h a List.mem_cons_self
    rw [List.cons_append, scan_unit (by simp [is_of_le _ ha]) (is_of_le (by decide) ha)
      (by simp [is_of_le _ ha, isDigit_of_le ha]), ih fun b hb => h b (List.mem_cons_of_mem a hb)]
    simp

theorem scan_char (hescape : (inString && c = '\\') = false) (hquote : c ≠ '"')
    (hnumber : (!inString && (c = '-' || c.isDigit)) = false) :
    scan E cut inString run (E.encode c ++ rest) =
      scan E cut inString (run ++ E.encode c) rest := by
  by_cases hc : c.toNat < 128
  · rw [encode_eq_ascii hc, List.singleton_append]
    refine scan_unit ?_ ?_ ?_
    · rw [is_ascii hc]
      exact hescape
    · rw [is_ascii hc]
      exact decide_eq_false hquote
    · rw [is_ascii hc, isDigit_ascii hc]
      exact hnumber
  · exact scan_units (E.code_encode c (by omega))

theorem scan_hexDigit (h : isHexDigit c = true) (text : List Char) :
    scan E cut true run (encoded E (c :: text) ++ rest) =
      scan E cut true (run ++ E.encode c) (encoded E text ++ rest) := by
  have hescape : c ≠ '\\' := by
    rintro rfl
    exact absurd h (by decide)
  have hquote : c ≠ '"' := by
    rintro rfl
    exact absurd h (by decide)
  rw [encoded_cons, List.append_assoc, scan_char (by simp [hescape]) hquote rfl]

theorem scan_body {body : List Char} (h : StringBody body) :
    scan E cut true run (encoded E body ++ rest) =
      scan E cut true (run ++ encoded E body) rest := by
  induction h generalizing run with
  | nil => simp [encoded]
  | char hquote hescape _ _ ih =>
    rw [encoded_cons, List.append_assoc, scan_char (by simp [hescape]) hquote rfl, ih,
      List.append_assoc]
  | @escape c body hc _ ih =>
    have hascii : c.toNat < 128 := by
      simp only [List.mem_cons, List.not_mem_nil, or_false] at hc
      rcases hc with rfl | rfl | rfl | rfl | rfl | rfl | rfl | rfl <;> decide
    rw [encoded_ascii_cons (by decide), encoded_ascii_cons hascii, List.cons_append,
      List.cons_append, scan_escape, ih]
    simp
  | unicode ha hb hc hd _ ih =>
    rw [encoded_ascii_cons (by decide), encoded_ascii_cons (by decide), List.cons_append,
      List.cons_append, scan_escape, scan_hexDigit ha, scan_hexDigit hb, scan_hexDigit hc,
      scan_hexDigit hd, ih]
    simp [encoded_cons]

theorem scan_quiet (h : Quiet text) :
    scan E cut false run (encoded E text ++ rest) =
      scan E cut false (run ++ encoded E text) rest := by
  induction h generalizing run with
  | nil => simp [encoded]
  | char hquote hsign hdigit _ ih =>
    rw [encoded_cons, List.append_assoc, scan_char rfl hquote (by simp [hsign, hdigit]), ih,
      List.append_assoc]
  | string hbody _ ih =>
    rw [List.cons_append, encoded_ascii_cons (by decide), encoded_append,
      encoded_ascii_cons (by decide), List.cons_append, scan_quote, List.append_assoc,
      Bool.not_false, scan_body hbody, List.cons_append, scan_quote, Bool.not_true, ih]
    simp

theorem takeWhile_of_stops (h : Stops text) :
    (encoded E text).takeWhile (isNumberUnit E) = [] ∧
      (encoded E text).dropWhile (isNumberUnit E) = encoded E text := by
  cases text with
  | nil => exact ⟨rfl, rfl⟩
  | cons c text =>
    obtain ⟨a, units, hunits⟩ := List.exists_cons_of_ne_nil (E.encode_ne c)
    have ha : isNumberUnit E a = false := by
      by_cases hc : c.toNat < 128
      · rw [encode_eq_ascii hc] at hunits
        rw [← (List.cons.inj hunits).1, isNumberUnit_ascii hc]
        exact h c rfl
      · exact isNumberUnit_of_le (E.code_encode c (by omega) a (by simp [hunits]))
    rw [encoded_cons, hunits, List.cons_append, List.takeWhile_cons_of_neg (by simp [ha]),
      List.dropWhile_cons_of_neg (by simp [ha])]
    exact ⟨rfl, rfl⟩

theorem scan_number (l : Literal) (hstops : Stops text) (hcut : cut (encoded E text) = true) :
    scan E cut false run (encoded E (l.text ++ text)) =
      (scan E cut false [] (encoded E text)).map fun tokens =>
        flush run ++ .number (encoded E l.text) :: tokens := by
  obtain ⟨c, digits, htext, hstart⟩ := text_head l
  have hascii : ∀ d ∈ c :: digits, d.toNat < 128 := fun d hd =>
    ascii_of_isNumberChar (isNumberChar_text (htext ▸ hd))
  rw [List.forall_mem_cons] at hascii
  have hall : ∀ a ∈ digits.map (ascii E), isNumberUnit E a = true := by
    intro a ha
    obtain ⟨d, hd, rfl⟩ := List.mem_map.mp ha
    rw [isNumberUnit_ascii (hascii.2 d hd)]
    exact isNumberChar_text (htext ▸ List.mem_cons_of_mem c hd)
  have hnumber : (is E '-' (ascii E c) || isDigit E (ascii E c)) = true := by
    rw [is_ascii hascii.1, isDigit_ascii hascii.1]
    simpa using hstart
  have hquote : is E '"' (ascii E c) = false := by
    rw [is_ascii hascii.1]
    rcases hstart with rfl | hdigit
    · decide
    · refine decide_eq_false ?_
      rintro rfl
      exact absurd hdigit (by decide)
  obtain ⟨htake, hdrop⟩ := takeWhile_of_stops (E := E) hstops
  rw [htext, List.cons_append, encoded_ascii_cons hascii.1, encoded_append,
    encoded_ascii_cons hascii.1, encoded_ascii hascii.2, scan]
  simp only [Bool.false_and, hquote, hnumber, List.takeWhile_append_of_pos hall,
    List.dropWhile_append_of_pos hall, htake, hdrop, hcut, Bool.not_false, Bool.true_and,
    if_true, if_false, Bool.false_eq_true, List.append_nil]

def token (E : AsciiEncoding α) : Piece → Token α
  | .text chars => .other (encoded E chars)
  | .number literal => .number (encoded E literal.text)

/-- The text before a number, or before the end, as a piece; an empty one is no piece. -/
def flushText (run : List Char) : List Piece := if run.isEmpty then [] else [.text run]

/-- Pieces with neighbouring texts joined, after a text, and the text they end with. -/
def gather (run : List Char) : List Piece → List Piece × List Char
  | [] => ([], run)
  | .text chars :: pieces => gather (run ++ chars) pieces
  | .number literal :: pieces =>
    (flushText run ++ .number literal :: (gather [] pieces).1, (gather [] pieces).2)

def joined (pieces : List Piece) : List Piece :=
  (gather [] pieces).1 ++ flushText (gather [] pieces).2

theorem flush_encoded (run : List Char) :
    flush (encoded E run) = (flushText run).map (token E) := by
  cases run with
  | nil => rfl
  | cons c run =>
    obtain ⟨a, as, has⟩ := List.exists_cons_of_ne_nil (E.encode_ne c)
    simp [flush, flushText, token, encoded_cons, has]

theorem scan_spaced (hcut : ∀ text, cut (encoded E text) = true) {pieces : List Piece}
    (run : List Char) (h : Spaced pieces text) :
    scan E cut false (encoded E run) (encoded E (chars pieces ++ text)) =
      (scan E cut false (encoded E (gather run pieces).2) (encoded E text)).map fun tokens =>
        (gather run pieces).1.map (token E) ++ tokens := by
  induction pieces generalizing run with
  | nil => simp [gather, chars]
  | cons piece pieces ih =>
    cases piece with
    | text chars =>
      rw [chars_cons, List.append_assoc, Piece.chars, encoded_append, scan_quiet h.1,
        ← encoded_append, ih _ h.2]
      rfl
    | number literal =>
      have hih := ih [] h.2
      rw [show encoded E ([] : List Char) = [] from rfl] at hih
      rw [chars_cons, List.append_assoc, Piece.chars, scan_number literal h.1 (hcut _), hih,
        Option.map_map, flush_encoded]
      simp [gather, Function.comp_def, token]

/-- The scan of a document finds its numbers and the text between them. -/
theorem scan_document (hcut : ∀ text, cut (encoded E text) = true) {pieces : List Piece}
    (h : Document pieces) :
    scan E cut false [] (encoded E (chars pieces)) = some ((joined pieces).map (token E)) := by
  have hscan := scan_spaced hcut [] h.spaced
  rw [List.append_nil, show encoded E ([] : List Char) = [] from rfl] at hscan
  rw [hscan, scan, flush_encoded, joined, List.map_append]
  rfl

theorem dropWhile_encoded (text : List Char) :
    (encoded E text).dropWhile (isNumberUnit E) = encoded E (text.dropWhile isNumberChar) := by
  induction text with
  | nil => rfl
  | cons c text ih =>
    by_cases hc : isNumberChar c = true
    · have hascii := ascii_of_isNumberChar hc
      rw [encoded_ascii_cons hascii, List.dropWhile_cons_of_pos hc,
        List.dropWhile_cons_of_pos (by rw [isNumberUnit_ascii hascii]; exact hc), ih]
    · have hstops : Stops (c :: text) := stops_cons (Bool.not_eq_true _ ▸ hc)
      rw [List.dropWhile_cons_of_neg hc, (takeWhile_of_stops hstops).2]

/-- No text makes the scan slice inside a character. -/
theorem scan_isSome (hcut : ∀ text, cut (encoded E text) = true) (text : List Char)
    {units : List α} (hunits : ∀ a ∈ units, 128 ≤ E.code a) :
    (scan E cut inString run (units ++ encoded E text)).isSome = true := by
  induction hn : (units ++ encoded E text).length using Nat.strong_induction_on
    generalizing units text inString run with
  | _ n ih =>
    subst hn
    -- One unit of a character outside ASCII.
    have hunit : ∀ {a : α} {as : List α} {more : List Char}, (∀ b ∈ a :: as, 128 ≤ E.code b) →
        (as ++ encoded E more).length < (units ++ encoded E text).length →
        (scan E cut inString run (a :: as ++ encoded E more)).isSome = true := by
      intro a as more ha hlt
      rw [List.forall_mem_cons] at ha
      rw [List.cons_append, scan_unit (by simp [is_of_le _ ha.1]) (is_of_le (by decide) ha.1)
        (by simp [is_of_le _ ha.1, isDigit_of_le ha.1])]
      exact ih _ hlt more ha.2 rfl
    cases units with
    | cons a units => exact hunit hunits (by simp)
    | nil =>
      cases text with
      | nil => simp [encoded, scan]
      | cons c text =>
        have hnone : ∀ a ∈ ([] : List α), 128 ≤ E.code a := by simp
        by_cases hc : c.toNat < 128
        · rw [List.nil_append, encoded_ascii_cons hc] at ih ⊢
          rw [scan]
          split
          · cases text with
            | nil => simp [encoded, scan]
            | cons d text =>
              obtain ⟨b, bs, hbs⟩ := List.exists_cons_of_ne_nil (E.encode_ne d)
              have hcode : ∀ a ∈ bs, 128 ≤ E.code a := by
                by_cases hd : d.toNat < 128
                · rw [encode_eq_ascii hd] at hbs
                  simp [← (List.cons.inj hbs).2]
                · intro a ha
                  exact E.code_encode d (by omega) a (by simp [hbs, ha])
              rw [encoded_cons, hbs, List.cons_append, List.drop_one, List.tail_cons]
              exact ih _ (by simp [encoded_cons, hbs]) text hcode rfl
          split
          · exact ih _ (by simp) text hnone rfl
          split
          · rw [dropWhile_encoded, if_pos (hcut _), Option.isSome_map]
            refine ih _ ?_ (text.dropWhile isNumberChar) hnone rfl
            rw [List.nil_append, ← dropWhile_encoded, List.length_cons]
            exact Nat.lt_succ_of_le (List.dropWhile_suffix _).length_le
          · exact ih _ (by simp) text hnone rfl
        · obtain ⟨a, as, has⟩ := List.exists_cons_of_ne_nil (E.encode_ne c)
          have hcode := E.code_encode c (by omega)
          rw [has] at hcode
          rw [List.nil_append, encoded_cons, has]
          exact hunit hcode (by simp [encoded_cons, has])

end Scan

end EventStore.Numbers
