import EventStore.Lib.JsonGrammar

/-!
JSON values and the text a compact encoder writes for them. The text is a document of the
grammar, number by number, so what is known of documents holds for it.
-/
namespace JsonValues

open JsonNumbers JsonGrammar

section Numbers

def digitOf (c : Char) : Digit := ⟨(c.toNat - 48) % 10, Nat.mod_lt _ (by decide)⟩

def spanDigits (text : List Char) : List Digit × List Char :=
  ((text.takeWhile Char.isDigit).map digitOf, text.dropWhile Char.isDigit)

def readFraction (text : List Char) : Option (List Digit × List Char) :=
  if text.head? = some '.' then
    if (spanDigits text.tail).1 = [] then none else some (spanDigits text.tail)
  else some ([], text)

def readSign (text : List Char) : Option Bool :=
  if text.head? = some '-' then some true
  else if text.head? = some '+' then some false
  else none

def readExponentDigits (upper : Bool) (sign : Option Bool) (text : List Char) :
    Option (Option Exponent × List Char) :=
  if h : (spanDigits text).1 ≠ [] then
    some (some ⟨upper, sign, (spanDigits text).1, h⟩, (spanDigits text).2)
  else none

def readExponent (text : List Char) : Option (Option Exponent × List Char) :=
  if text.head? = some 'e' ∨ text.head? = some 'E' then
    let sign := readSign text.tail
    readExponentDigits (text.head? = some 'E') sign
      (if sign.isSome then text.tail.tail else text.tail)
  else some (none, text)

def readLiteral (text : List Char) : Option (Literal × List Char) :=
  let negative : Bool := text.head? = some '-'
  let span := spanDigits (if negative then text.tail else text)
  if h : span.1 ≠ [] ∧ NoLeadingZero span.1 then do
    let (fraction, rest) ← readFraction span.2
    let (exponent, rest) ← readExponent rest
    some (⟨negative, span.1, fraction, exponent, h.1, h.2⟩, rest)
  else none

end Numbers

section Strings

def hexDigit (n : Nat) : Char := Char.ofNat (if n < 10 then 48 + n else 87 + n)

def unicodeEscape (c : Char) : List Char :=
  ['\\', 'u', hexDigit (c.toNat / 4096 % 16), hexDigit (c.toNat / 256 % 16),
    hexDigit (c.toNat / 16 % 16), hexDigit (c.toNat % 16)]

def shortEscapes : List (Char × Char) :=
  [('"', '"'), ('\\', '\\'), ('\x08', 'b'), ('\x0c', 'f'), ('\n', 'n'), ('\r', 'r'), ('\t', 't')]

def escapeChar (extra : Char → Bool) (c : Char) : List Char :=
  match shortEscapes.lookup c with
  | some short => ['\\', short]
  | none => if c.toNat < 0x20 || extra c then unicodeEscape c else [c]

def escaped (extra : Char → Bool) (text : List Char) : List Char := text.flatMap (escapeChar extra)

end Strings

section Values

/-- A value as its text has it: numbers are literals, and an object's members keep their order. -/
inductive Value where
  | null
  | bool (value : Bool)
  | number (literal : Literal)
  | string (text : String)
  | array (items : List Value)
  | object (members : List (String × Value))

namespace Value

def quoted (extra : Char → Bool) (text : String) : List Char :=
  '"' :: escaped extra text.toList ++ ['"']

mutual
def pieces (extra : Char → Bool) : Value → List Piece
  | .null => [.text "null".toList]
  | .bool value => [.text (if value then "true" else "false").toList]
  | .number literal => [.number literal]
  | .string text => [.text (quoted extra text)]
  | .array items =>
    if items.isEmpty then [.text ['[', ']']]
    else .text ['['] :: itemPieces extra items ++ [.text [']']]
  | .object members =>
    if members.isEmpty then [.text ['{', '}']]
    else .text ['{'] :: memberPieces extra members ++ [.text ['}']]

def itemPieces (extra : Char → Bool) : List Value → List Piece
  | [] => []
  | [item] => .text [] :: pieces extra item ++ [.text []]
  | item :: next :: items =>
    .text [] :: pieces extra item ++ .text [','] :: itemPieces extra (next :: items)

def memberPieces (extra : Char → Bool) : List (String × Value) → List Piece
  | [] => []
  | [(key, value)] =>
    .text (quoted extra key ++ [':']) :: pieces extra value ++ [.text []]
  | (key, value) :: next :: members =>
    .text (quoted extra key ++ [':']) :: pieces extra value ++
      .text [','] :: memberPieces extra (next :: members)
end

def print (extra : Char → Bool) (value : Value) : List Char := chars (value.pieces extra)

mutual
def depth : Value → Nat
  | .array items => itemsDepth items + 1
  | .object members => membersDepth members + 1
  | _ => 0

def itemsDepth : List Value → Nat
  | [] => 0
  | item :: items => max (depth item) (itemsDepth items)

def membersDepth : List (String × Value) → Nat
  | [] => 0
  | (_, value) :: members => max (depth value) (membersDepth members)
end

mutual
def mapNumbers (f : Literal → Literal) : Value → Value
  | .number literal => .number (f literal)
  | .array items => .array (mapItems f items)
  | .object members => .object (mapMembers f members)
  | value => value

def mapItems (f : Literal → Literal) : List Value → List Value
  | [] => []
  | item :: items => mapNumbers f item :: mapItems f items

def mapMembers (f : Literal → Literal) : List (String × Value) → List (String × Value)
  | [] => []
  | (key, value) :: members => (key, mapNumbers f value) :: mapMembers f members
end

end Value

end Values

section Documents

open Value

variable {extra : Char → Bool}

theorem isHexDigit_hexDigit {n : Nat} (h : n < 16) : isHexDigit (hexDigit n) = true := by
  revert n
  decide

theorem stringBody_escapeChar (c : Char) {rest : List Char} (h : StringBody rest) :
    StringBody (escapeChar extra c ++ rest) := by
  unfold escapeChar
  cases hshort : shortEscapes.lookup c with
  | some short =>
    obtain ⟨before, after, heq, -⟩ := List.lookup_eq_some_iff.mp hshort
    have hall : ∀ pair ∈ shortEscapes, pair.2 ∈ ['"', '\\', '/', 'b', 'f', 'n', 'r', 't'] := by
      decide
    exact .escape (hall (c, short) (by simp [heq])) h
  | none =>
    by_cases hescape : (decide (c.toNat < 0x20) || extra c) = true
    · simp only [hescape, if_true]
      exact .unicode (isHexDigit_hexDigit (Nat.mod_lt _ (by decide)))
        (isHexDigit_hexDigit (Nat.mod_lt _ (by decide)))
        (isHexDigit_hexDigit (Nat.mod_lt _ (by decide)))
        (isHexDigit_hexDigit (Nat.mod_lt _ (by decide))) h
    · have hquote : c ≠ '"' := by
        rintro rfl
        exact absurd hshort (by decide)
      have hbackslash : c ≠ '\\' := by
        rintro rfl
        exact absurd hshort (by decide)
      have hcontrol : 0x20 ≤ c.toNat := not_lt.mp fun hlt => hescape (by simp [hlt])
      rw [if_neg hescape]
      exact .char hquote hbackslash hcontrol h

theorem stringBody_escaped (extra : Char → Bool) (text : List Char) :
    StringBody (escaped extra text) := by
  induction text with
  | nil => exact .nil
  | cons c text ih => exact stringBody_escapeChar c ih

mutual
theorem derives_pieces (value : Value) : Derives .value (value.pieces extra) := by
  match value with
  | .null => exact .word (by decide)
  | .bool true => exact .word (by decide)
  | .bool false => exact .word (by decide)
  | .number literal =>
    rw [pieces]
    exact .number literal
  | .string text =>
    rw [pieces]
    exact .string (stringBody_escaped extra text.toList)
  | .array items =>
    rw [pieces]
    split
    · exact .emptyArray spaces_nil
    · rename_i h
      exact .array (derives_items items (by simpa using h))
  | .object members =>
    rw [pieces]
    split
    · exact .emptyObject spaces_nil
    · rename_i h
      exact .object (derives_members members (by simpa using h))

theorem derives_items (items : List Value) (h : items ≠ []) :
    Derives .elements (itemPieces extra items) := by
  match items, h with
  | [item], _ =>
    rw [itemPieces]
    exact .element spaces_nil (derives_pieces item) spaces_nil
  | item :: next :: items, _ =>
    rw [itemPieces]
    exact .elements spaces_nil (derives_pieces item) spaces_nil
      (derives_items (next :: items) (List.cons_ne_nil _ _))

theorem derives_members (members : List (String × Value)) (h : members ≠ []) :
    Derives .members (memberPieces extra members) := by
  match members, h with
  | [(key, value)], _ =>
    have hkey := Derives.member spaces_nil (stringBody_escaped extra key.toList)
      spaces_nil spaces_nil (derives_pieces value) spaces_nil
    rw [memberPieces]
    simpa [quoted] using hkey
  | (key, value) :: next :: members, _ =>
    have hkey := Derives.members spaces_nil (stringBody_escaped extra key.toList)
      spaces_nil spaces_nil (derives_pieces value) spaces_nil
      (derives_members (next :: members) (List.cons_ne_nil _ _))
    rw [memberPieces]
    simpa [quoted] using hkey
end

mutual
theorem pieces_mapNumbers (f : Literal → Literal) (value : Value) :
    (value.mapNumbers f).pieces extra = (value.pieces extra).map (Piece.mapNumber f) := by
  match value with
  | .null => rfl
  | .bool value => rfl
  | .number literal =>
    rw [mapNumbers, pieces, pieces]
    rfl
  | .string text =>
    rw [mapNumbers, pieces]
    · rfl
    all_goals rintro _ ⟨⟩
  | .array items =>
    have hitems : (mapItems f items).isEmpty = items.isEmpty := by cases items <;> rfl
    rw [mapNumbers, pieces, pieces, hitems, itemPieces_mapItems f items]
    split
    · rfl
    · simp [Piece.mapNumber]
  | .object members =>
    have hmembers : (mapMembers f members).isEmpty = members.isEmpty := by
      cases members <;> rfl
    rw [mapNumbers, pieces, pieces, hmembers, memberPieces_mapMembers f members]
    split
    · rfl
    · simp [Piece.mapNumber]

theorem itemPieces_mapItems (f : Literal → Literal) (items : List Value) :
    itemPieces extra (mapItems f items) = (itemPieces extra items).map (Piece.mapNumber f) := by
  match items with
  | [] => rfl
  | [item] => simp [mapItems, itemPieces, pieces_mapNumbers f item, Piece.mapNumber]
  | item :: next :: items =>
    have hrest := itemPieces_mapItems f (next :: items)
    rw [mapItems] at hrest
    simp [mapItems, itemPieces, pieces_mapNumbers f item, Piece.mapNumber, hrest]

theorem memberPieces_mapMembers (f : Literal → Literal) (members : List (String × Value)) :
    memberPieces extra (mapMembers f members) =
      (memberPieces extra members).map (Piece.mapNumber f) := by
  match members with
  | [] => rfl
  | [(key, value)] =>
    simp [mapMembers, memberPieces, pieces_mapNumbers f value, Piece.mapNumber]
  | (key, value) :: next :: members =>
    have hrest := memberPieces_mapMembers f (next :: members)
    rw [mapMembers] at hrest
    simp [mapMembers, memberPieces, pieces_mapNumbers f value, Piece.mapNumber, hrest]
end

mutual
theorem depth_mapNumbers (f : Literal → Literal) (value : Value) :
    (value.mapNumbers f).depth = value.depth := by
  match value with
  | .null | .bool _ | .number _ | .string _ => rfl
  | .array items => rw [mapNumbers, depth, depth, itemsDepth_mapItems f items]
  | .object members => rw [mapNumbers, depth, depth, membersDepth_mapMembers f members]

theorem itemsDepth_mapItems (f : Literal → Literal) (items : List Value) :
    itemsDepth (mapItems f items) = itemsDepth items := by
  match items with
  | [] => rfl
  | item :: items =>
    rw [mapItems, itemsDepth, itemsDepth, depth_mapNumbers f item, itemsDepth_mapItems f items]

theorem membersDepth_mapMembers (f : Literal → Literal) (members : List (String × Value)) :
    membersDepth (mapMembers f members) = membersDepth members := by
  match members with
  | [] => rfl
  | (key, value) :: members =>
    rw [mapMembers, membersDepth, membersDepth, depth_mapNumbers f value,
      membersDepth_mapMembers f members]
end

def document (extra : Char → Bool) (value : Value) : List Piece :=
  .text [] :: value.pieces extra ++ [.text []]

theorem document_isDocument (value : Value) : Document (document extra value) :=
  .mk spaces_nil (derives_pieces value) spaces_nil

theorem chars_document (value : Value) : chars (document extra value) = print extra value := by
  simp [document, print, chars, Piece.chars]

theorem document_mapNumbers (f : Literal → Literal) (value : Value) :
    (document extra value).map (Piece.mapNumber f) = document extra (value.mapNumbers f) := by
  simp [document, pieces_mapNumbers, Piece.mapNumber]

end Documents

end JsonValues
