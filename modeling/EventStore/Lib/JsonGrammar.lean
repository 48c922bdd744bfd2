import EventStore.Lib.JsonNumbers

/-!
The texts JSON accepts, as derivations of its grammar. A document is a list of pieces, the
numbers in it and the text between them, so that a document can be rewritten number by number.
-/
namespace JsonGrammar

open JsonNumbers

def isSpace (c : Char) : Bool := c = ' ' || c = '\t' || c = '\n' || c = '\r'

def isHexDigit (c : Char) : Bool :=
  c.isDigit || ('a' ≤ c && c ≤ 'f') || ('A' ≤ c && c ≤ 'F')

inductive StringBody : List Char → Prop
  | nil : StringBody []
  | char {c : Char} {rest : List Char} (hquote : c ≠ '"') (hescape : c ≠ '\\')
      (hcontrol : 0x20 ≤ c.toNat) (h : StringBody rest) : StringBody (c :: rest)
  | escape {c : Char} {rest : List Char} (hc : c ∈ ['"', '\\', '/', 'b', 'f', 'n', 'r', 't'])
      (h : StringBody rest) : StringBody ('\\' :: c :: rest)
  | unicode {a b c d : Char} {rest : List Char} (ha : isHexDigit a) (hb : isHexDigit b)
      (hc : isHexDigit c) (hd : isHexDigit d) (h : StringBody rest) :
      StringBody ('\\' :: 'u' :: a :: b :: c :: d :: rest)

inductive Piece where
  | text (chars : List Char)
  | number (literal : Literal)

def Piece.chars : Piece → List Char
  | .text chars => chars
  | .number literal => literal.text

def Piece.mapNumber (f : Literal → Literal) : Piece → Piece
  | .text chars => .text chars
  | .number literal => .number (f literal)

def chars (pieces : List Piece) : List Char := pieces.flatMap Piece.chars

def numbers (pieces : List Piece) : List Literal :=
  pieces.filterMap fun
    | .text _ => none
    | .number literal => some literal

def spaces (text : List Char) : Prop := ∀ c ∈ text, isSpace c = true

theorem spaces_nil : spaces [] := fun _ h => absurd h List.not_mem_nil

inductive Symbol where
  | value
  | elements
  | members

/-- The pieces of a value, and of the elements and the members between brackets. -/
inductive Derives : Symbol → List Piece → Prop
  | word {word : String} (h : word ∈ ["null", "true", "false"]) :
      Derives .value [.text word.toList]
  | number (literal : Literal) : Derives .value [.number literal]
  | string {body : List Char} (h : StringBody body) :
      Derives .value [.text ('"' :: body ++ ['"'])]
  | emptyArray {between : List Char} (h : spaces between) :
      Derives .value [.text ('[' :: between ++ [']'])]
  | array {elements : List Piece} (h : Derives .elements elements) :
      Derives .value (.text ['['] :: elements ++ [.text [']']])
  | emptyObject {between : List Char} (h : spaces between) :
      Derives .value [.text ('{' :: between ++ ['}'])]
  | object {members : List Piece} (h : Derives .members members) :
      Derives .value (.text ['{'] :: members ++ [.text ['}']])
  | element {value : List Piece} {before after : List Char} (hbefore : spaces before)
      (h : Derives .value value) (hafter : spaces after) :
      Derives .elements (.text before :: value ++ [.text after])
  | elements {value rest : List Piece} {before after : List Char} (hbefore : spaces before)
      (h : Derives .value value) (hafter : spaces after) (hrest : Derives .elements rest) :
      Derives .elements (.text before :: value ++ .text (after ++ [',']) :: rest)
  | member {body before middle between after : List Char} {value : List Piece}
      (hbefore : spaces before) (hbody : StringBody body) (hmiddle : spaces middle)
      (hbetween : spaces between) (h : Derives .value value) (hafter : spaces after) :
      Derives .members (.text (before ++ ('"' :: body ++ ['"']) ++ middle ++ ':' :: between) ::
        value ++ [.text after])
  | members {body before middle between after : List Char} {value rest : List Piece}
      (hbefore : spaces before) (hbody : StringBody body) (hmiddle : spaces middle)
      (hbetween : spaces between) (h : Derives .value value) (hafter : spaces after)
      (hrest : Derives .members rest) :
      Derives .members (.text (before ++ ('"' :: body ++ ['"']) ++ middle ++ ':' :: between) ::
        value ++ .text (after ++ [',']) :: rest)

inductive Document : List Piece → Prop
  | mk {value : List Piece} {before after : List Char} (hbefore : spaces before)
      (h : Derives .value value) (hafter : spaces after) :
      Document (.text before :: value ++ [.text after])

variable {pieces : List Piece}

theorem Derives.mapNumber (f : Literal → Literal) {symbol : Symbol} (h : Derives symbol pieces) :
    Derives symbol (pieces.map (Piece.mapNumber f)) := by
  induction h with
  | word h => exact .word h
  | number literal => exact .number (f literal)
  | string h => exact .string h
  | emptyArray h => exact .emptyArray h
  | array _ ih => simpa [Piece.mapNumber] using Derives.array ih
  | emptyObject h => exact .emptyObject h
  | object _ ih => simpa [Piece.mapNumber] using Derives.object ih
  | element hbefore _ hafter ih => simpa [Piece.mapNumber] using Derives.element hbefore ih hafter
  | elements hbefore _ hafter _ ih ihrest =>
    simpa [Piece.mapNumber] using Derives.elements hbefore ih hafter ihrest
  | member hbefore hbody hmiddle hbetween _ hafter ih =>
    simpa [Piece.mapNumber] using Derives.member hbefore hbody hmiddle hbetween ih hafter
  | members hbefore hbody hmiddle hbetween _ hafter _ ih ihrest =>
    simpa [Piece.mapNumber] using
      Derives.members hbefore hbody hmiddle hbetween ih hafter ihrest

theorem Document.mapNumber (f : Literal → Literal) (h : Document pieces) :
    Document (pieces.map (Piece.mapNumber f)) := by
  cases h with
  | mk hbefore h hafter => simpa [Piece.mapNumber] using Document.mk hbefore (h.mapNumber f) hafter

def isNumberChar (c : Char) : Bool :=
  c.isDigit || c = '-' || c = '+' || c = '.' || c = 'e' || c = 'E'

theorem isDigit_digitChar (d : Digit) : (digitChar d).isDigit = true := by
  revert d
  decide

variable {c : Char}

theorem isNumberChar_digits {digits : List Digit} (hc : c ∈ digits.map digitChar) :
    isNumberChar c = true := by
  obtain ⟨d, -, rfl⟩ := List.mem_map.mp hc
  simp [isNumberChar, isDigit_digitChar]

theorem isNumberChar_exponent {e : Exponent} (hc : c ∈ e.text) : isNumberChar c = true := by
  rw [Exponent.text, List.mem_cons, List.mem_append] at hc
  rcases hc with rfl | hc | hc
  · cases e.upper <;> decide
  · unfold signText at hc
    split at hc <;> simp at hc <;> subst hc <;> decide
  · exact isNumberChar_digits hc

theorem isNumberChar_text {l : Literal} (hc : c ∈ l.text) : isNumberChar c = true := by
  simp only [Literal.text, List.mem_append, or_assoc] at hc
  rcases hc with hc | hc | hc | hc
  · cases hnegative : l.negative <;> simp [hnegative] at hc
    subst hc
    decide
  · exact isNumberChar_digits hc
  · by_cases hfraction : l.fraction = []
    · simp [hfraction] at hc
    · rw [if_neg hfraction, List.mem_cons] at hc
      rcases hc with rfl | hc
      · decide
      · exact isNumberChar_digits hc
  · cases hexponent : l.exponent with
    | none => simp [hexponent] at hc
    | some e =>
      rw [hexponent] at hc
      exact isNumberChar_exponent hc

theorem text_head (l : Literal) : ∃ c rest, l.text = c :: rest ∧ (c = '-' ∨ c.isDigit = true) := by
  obtain ⟨d, digits, hinteger⟩ := List.exists_cons_of_ne_nil l.integer_ne
  rw [Literal.text, hinteger]
  cases l.negative with
  | true => exact ⟨'-', _, rfl, .inl rfl⟩
  | false => exact ⟨digitChar d, _, rfl, .inr (isDigit_digitChar d)⟩

theorem ascii_of_isNumberChar (h : isNumberChar c = true) : c.toNat < 128 := by
  simp only [isNumberChar, Bool.or_eq_true, decide_eq_true_eq] at h
  rcases h with ((((h | rfl) | rfl) | rfl) | rfl) | rfl
  · simp only [Char.isDigit, Bool.and_eq_true, decide_eq_true_eq] at h
    have hle : c.toNat ≤ '9'.toNat := h.2
    exact lt_of_le_of_lt hle (by decide)
  all_goals decide

/-- Text with its quotes closed and no number outside them. -/
inductive Quiet : List Char → Prop
  | nil : Quiet []
  | char {c : Char} {rest : List Char} (hquote : c ≠ '"') (hsign : c ≠ '-')
      (hdigit : c.isDigit = false) (h : Quiet rest) : Quiet (c :: rest)
  | string {body rest : List Char} (hbody : StringBody body) (h : Quiet rest) :
      Quiet ('"' :: body ++ '"' :: rest)

theorem Quiet.append {text more : List Char} (h : Quiet text) (hmore : Quiet more) :
    Quiet (text ++ more) := by
  induction h with
  | nil => exact hmore
  | char hquote hsign hdigit _ ih => exact .char hquote hsign hdigit ih
  | string hbody _ ih => simpa using Quiet.string hbody ih

def Stops (text : List Char) : Prop := ∀ c, text.head? = some c → isNumberChar c = false

/-- Every number of the pieces ends where its literal does, also before the given text. -/
def Spaced : List Piece → List Char → Prop
  | [], _ => True
  | .text chars :: pieces, rest => Quiet chars ∧ Spaced pieces rest
  | .number _ :: pieces, rest => Stops (chars pieces ++ rest) ∧ Spaced pieces rest

theorem chars_cons (piece : Piece) (pieces : List Piece) :
    chars (piece :: pieces) = piece.chars ++ chars pieces := rfl

theorem chars_append (pieces more : List Piece) :
    chars (pieces ++ more) = chars pieces ++ chars more := by
  simp [chars]

variable {rest : List Char}

theorem Spaced.append {more : List Piece} (h : Spaced pieces (chars more ++ rest))
    (hmore : Spaced more rest) : Spaced (pieces ++ more) rest := by
  induction pieces with
  | nil => exact hmore
  | cons piece pieces ih =>
    cases piece with
    | text chars => exact ⟨h.1, ih h.2⟩
    | number literal =>
      refine ⟨?_, ih h.2⟩
      change Stops (chars (pieces ++ more) ++ rest)
      rw [chars_append, List.append_assoc]
      exact h.1

theorem stops_nil : Stops [] := by
  intro c hc
  cases hc

theorem stops_cons {text : List Char} (h : isNumberChar c = false) : Stops (c :: text) := by
  intro d hd
  cases hd
  exact h

variable {between : List Char}

theorem stops_spaces (h : spaces between) (hrest : Stops rest) : Stops (between ++ rest) := by
  cases between with
  | nil => exact hrest
  | cons c between =>
    have hc : isSpace c = true := h c List.mem_cons_self
    refine stops_cons ?_
    simp only [isSpace, Bool.or_eq_true, decide_eq_true_eq] at hc
    rcases hc with ((rfl | rfl) | rfl) | rfl <;> decide

theorem quiet_spaces (h : spaces between) : Quiet between := by
  induction between with
  | nil => exact .nil
  | cons c between ih =>
    have hc : isSpace c = true := h c List.mem_cons_self
    have hrest := ih fun d hd => h d (List.mem_cons_of_mem c hd)
    simp only [isSpace, Bool.or_eq_true, decide_eq_true_eq] at hc
    rcases hc with ((rfl | rfl) | rfl) | rfl <;>
      exact .char (by decide) (by decide) (by decide) hrest

theorem quiet_mark (h : c ∈ ['[', ']', '{', '}', ',', ':']) : Quiet [c] := by
  simp only [List.mem_cons, List.not_mem_nil, or_false] at h
  rcases h with rfl | rfl | rfl | rfl | rfl | rfl <;>
    exact .char (by decide) (by decide) (by decide) .nil

theorem quiet_string {body : List Char} (h : StringBody body) : Quiet ('"' :: body ++ ['"']) :=
  .string h .nil

theorem quiet_word {word : String} (h : word ∈ ["null", "true", "false"]) :
    Quiet word.toList := by
  simp only [List.mem_cons, List.not_mem_nil, or_false] at h
  rcases h with rfl | rfl | rfl <;>
    · refine .char ?_ ?_ ?_ (.char ?_ ?_ ?_ (.char ?_ ?_ ?_ (.char ?_ ?_ ?_ ?_))) <;>
        first | decide | exact .nil | exact .char (by decide) (by decide) (by decide) .nil

theorem quiet_empty {before after : Char} (hbefore : before ∈ ['[', ']', '{', '}', ',', ':'])
    (h : spaces between) (hafter : after ∈ ['[', ']', '{', '}', ',', ':']) :
    Quiet (before :: between ++ [after]) :=
  (quiet_mark hbefore).append ((quiet_spaces h).append (quiet_mark hafter))

theorem quiet_key {body before middle : List Char} (hbefore : spaces before)
    (hbody : StringBody body) (hmiddle : spaces middle) (hbetween : spaces between) :
    Quiet (before ++ ('"' :: body ++ ['"']) ++ middle ++ ':' :: between) :=
  (((quiet_spaces hbefore).append (quiet_string hbody)).append (quiet_spaces hmiddle)).append
    ((quiet_mark (by decide)).append (quiet_spaces hbetween))

/-- In a document every number ends where its literal does. -/
theorem Derives.spaced {symbol : Symbol} (h : Derives symbol pieces) (hrest : Stops rest) :
    Spaced pieces rest := by
  have hcomma : ∀ {after tail : List Char}, spaces after → Stops (after ++ [','] ++ tail) :=
    fun hafter => by
      rw [List.append_assoc]
      exact stops_spaces hafter (stops_cons (by decide))
  induction h generalizing rest with
  | word h => exact ⟨quiet_word h, trivial⟩
  | number literal => exact ⟨hrest, trivial⟩
  | string h => exact ⟨quiet_string h, trivial⟩
  | emptyArray h => exact ⟨quiet_empty (by decide) h (by decide), trivial⟩
  | array _ ih =>
    exact ⟨quiet_mark (by decide), .append (ih (stops_cons (by decide)))
      ⟨quiet_mark (by decide), trivial⟩⟩
  | emptyObject h => exact ⟨quiet_empty (by decide) h (by decide), trivial⟩
  | object _ ih =>
    exact ⟨quiet_mark (by decide), .append (ih (stops_cons (by decide)))
      ⟨quiet_mark (by decide), trivial⟩⟩
  | element hbefore _ hafter ih =>
    refine ⟨quiet_spaces hbefore, .append (ih ?_) ⟨quiet_spaces hafter, trivial⟩⟩
    simpa [chars, Piece.chars] using stops_spaces hafter hrest
  | elements hbefore _ hafter _ ih ihrest =>
    refine ⟨quiet_spaces hbefore, .append (ih ?_)
      ⟨(quiet_spaces hafter).append (quiet_mark (by decide)), ihrest hrest⟩⟩
    rw [chars_cons, List.append_assoc]
    exact hcomma hafter
  | member hbefore hbody hmiddle hbetween _ hafter ih =>
    refine ⟨quiet_key hbefore hbody hmiddle hbetween, .append (ih ?_)
      ⟨quiet_spaces hafter, trivial⟩⟩
    simpa [chars, Piece.chars] using stops_spaces hafter hrest
  | members hbefore hbody hmiddle hbetween _ hafter _ ih ihrest =>
    refine ⟨quiet_key hbefore hbody hmiddle hbetween, .append (ih ?_)
      ⟨(quiet_spaces hafter).append (quiet_mark (by decide)), ihrest hrest⟩⟩
    rw [chars_cons, List.append_assoc]
    exact hcomma hafter

theorem Document.spaced (h : Document pieces) : Spaced pieces [] := by
  cases h with
  | mk hbefore h hafter =>
    refine ⟨quiet_spaces hbefore, .append (h.spaced ?_) ⟨quiet_spaces hafter, trivial⟩⟩
    simpa [chars, Piece.chars] using stops_spaces hafter stops_nil

end JsonGrammar
