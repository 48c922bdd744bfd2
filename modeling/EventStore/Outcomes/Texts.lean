import EventStore.Core.Outcomes
import EventStore.Numbers.Documents

/-!
The texts of an outcome row read back: base64 gives the bytes again, an array of strings the
strings, and a rejection its canonical form, unless its details nest too deep for the reader.
-/
namespace EventStore

open Result JsonNumbers JsonValues

namespace Base64

def code (c : Char) : UInt8 := .ofNat c.toNat

theorem symbol_mod (n : Nat) : symbol (n % 64) = symbol n := by
  rw [symbol, symbol, Nat.mod_mod]

theorem decodeSymbol_symbol (n : Nat) : decodeSymbol (code (symbol n)) = some (n % 64) := by
  have hall : ∀ k < 64, decodeSymbol (code (alphabet.getD k 'A')) = some k := by decide +kernel
  exact hall (n % 64) (Nat.mod_lt n (by decide))

theorem isPad_symbol (n : Nat) : isPad (code (symbol n)) = false := by
  have hall : ∀ k < 64, isPad (code (alphabet.getD k 'A')) = false := by decide +kernel
  exact hall (n % 64) (Nat.mod_lt n (by decide))

variable {padding : Nat}

theorem symbolValue_symbol {offset : Nat} (h : offset < 4 - padding) (index n : Nat) :
    symbolValue index offset padding (code (symbol n)) = .ok (n % 64) := by
  rw [symbolValue, if_neg (by omega), decodeSymbol_symbol]

theorem symbolValue_pad {offset : Nat} (h : 4 - padding ≤ offset) (index : Nat) (symbol : UInt8) :
    symbolValue index offset padding symbol = .ok 0 := if_pos h

theorem length_encodeChunk (b0 b1 b2 : UInt8) (padding : Nat) :
    (encodeChunk b0 b1 b2 padding).length = 4 := rfl

theorem isPad_pad : isPad (code '=') = true := by decide

theorem byte_of_triple (b0 b1 b2 : UInt8) :
    let triple := b0.toNat * 65536 + b1.toNat * 256 + b2.toNat
    let read := triple / 262144 % 64 * 262144 + triple / 4096 % 64 * 4096 + triple / 64 % 64 * 64 +
      triple % 64
    UInt8.ofNat (read / 65536) = b0 ∧ UInt8.ofNat (read / 256) = b1 ∧ UInt8.ofNat read = b2 := by
  have h0 := b0.toNat_lt
  have h1 := b1.toNat_lt
  have h2 := b2.toNat_lt
  simp only [← UInt8.toNat_inj, UInt8.toNat_ofNat']
  omega

theorem decodeQuad_eq (index : Nat) {last : Bool} {s0 s1 s2 s3 : UInt8} {v0 v1 v2 v3 : Nat}
    (hpadding : ([s3, s2, s1, s0].takeWhile isPad).length = padding) (hle : padding ≤ 2)
    (hlast : 0 < padding → last = true) (h0 : symbolValue index 0 padding s0 = .ok v0)
    (h1 : symbolValue index 1 padding s1 = .ok v1) (h2 : symbolValue index 2 padding s2 = .ok v2)
    (h3 : symbolValue index 3 padding s3 = .ok v3) :
    let triple := v0 * 262144 + v1 * 4096 + v2 * 64 + v3
    decodeQuad index last s0 s1 s2 s3 = .ok (.ofNat (triple / 65536) ::
      (if padding < 2 then [.ofNat (triple / 256)] else []) ++
        if padding < 1 then [.ofNat triple] else []) := by
  have hrefuse : refuse (2 < padding ∨ (0 < padding ∧ last = false)) (illegalAt (index * 4)) =
      .ok () := by
    rw [refuse_eq_ok]
    rintro (hlt | ⟨hpos, hfalse⟩)
    · omega
    · rw [hlast hpos] at hfalse
      cases hfalse
  rw [decodeQuad]
  simp only [hpadding]
  rw [hrefuse, h0, h1, h2, h3]
  rfl

def group (v0 v1 v2 v3 padding : Nat) : List Char :=
  [symbol v0, symbol v1, if padding < 2 then symbol v2 else '=',
    if padding < 1 then symbol v3 else '=']

def groupBytes (v0 v1 v2 v3 padding : Nat) : List UInt8 :=
  let triple := v0 * 262144 + v1 * 4096 + v2 * 64 + v3
  .ofNat (triple / 65536) :: (if padding < 2 then [.ofNat (triple / 256)] else []) ++
    if padding < 1 then [.ofNat triple] else []

theorem decodeQuad_group (index : Nat) {last : Bool} {v0 v1 v2 v3 : Nat} (h0 : v0 < 64)
    (h1 : v1 < 64) (h2 : v2 < 64) (h3 : v3 < 64) (hle : padding ≤ 2)
    (hlast : 0 < padding → last = true) (hv2 : padding = 2 → v2 = 0) (hv3 : 0 < padding → v3 = 0) :
    decodeQuad index last (code (symbol v0)) (code (symbol v1))
        (code (if padding < 2 then symbol v2 else '='))
        (code (if padding < 1 then symbol v3 else '=')) =
      .ok (groupBytes v0 v1 v2 v3 padding) := by
  have hsymbol : ∀ {offset v}, v < 64 → offset < 4 - padding →
      symbolValue index offset padding (code (symbol v)) = .ok v := by
    intro offset v hv hoffset
    rw [symbolValue_symbol hoffset, Nat.mod_eq_of_lt hv]
  rcases (by omega : padding = 0 ∨ padding = 1 ∨ padding = 2) with rfl | rfl | rfl
  · exact decodeQuad_eq index (by simp [isPad_symbol]) hle hlast (hsymbol h0 (by decide))
      (hsymbol h1 (by decide)) (hsymbol h2 (by decide)) (hsymbol h3 (by decide))
  · obtain rfl := hv3 (by decide)
    exact decodeQuad_eq index (by simp [isPad_symbol, isPad_pad]) hle hlast (hsymbol h0 (by decide))
      (hsymbol h1 (by decide)) (hsymbol h2 (by decide)) (symbolValue_pad (by decide) index _)
  · obtain rfl := hv3 (by decide)
    obtain rfl := hv2 rfl
    exact decodeQuad_eq index (by simp [isPad_symbol, isPad_pad]) hle hlast (hsymbol h0 (by decide))
      (hsymbol h1 (by decide)) (symbolValue_pad (by decide) index _)
      (symbolValue_pad (by decide) index _)

variable {bytes : List UInt8}

theorem decodeQuads_group {groups index : Nat} (v0 v1 v2 v3 padding : Nat) (h0 : v0 < 64)
    (h1 : v1 < 64) (h2 : v2 < 64) (h3 : v3 < 64) (hle : padding ≤ 2)
    (hlast : 0 < padding → index + 1 = groups) (hv2 : padding = 2 → v2 = 0)
    (hv3 : 0 < padding → v3 = 0) (chars : List Char)
    (h : decodeQuads groups (index + 1) (chars.map code) = .ok bytes) :
    decodeQuads groups index ((group v0 v1 v2 v3 padding ++ chars).map code) =
      .ok (groupBytes v0 v1 v2 v3 padding ++ bytes) := by
  change decodeQuads groups index (_ :: _ :: _ :: _ :: chars.map code) = _
  rw [decodeQuads,
    decodeQuad_group index h0 h1 h2 h3 hle (fun h => decide_eq_true (hlast h)) hv2 hv3, h]
  rfl

/-- What the decoder makes of a chunk: its bytes, as many as the padding leaves. -/
theorem decodeQuads_chunk {groups index : Nat} (b0 b1 b2 : UInt8) (hle : padding ≤ 2)
    (hlast : 0 < padding → index + 1 = groups) (h1 : padding = 2 → b1 = 0)
    (h2 : 0 < padding → b2 = 0) (chars : List Char)
    (h : decodeQuads groups (index + 1) (chars.map code) = .ok bytes) :
    decodeQuads groups index ((encodeChunk b0 b1 b2 padding ++ chars).map code) =
      .ok ((b0 :: (if padding < 2 then [b1] else []) ++ if padding < 1 then [b2] else []) ++
        bytes) := by
  obtain ⟨triple, htriple⟩ : ∃ n, n = b0.toNat * 65536 + b1.toNat * 256 + b2.toNat := ⟨_, rfl⟩
  have hbytes := byte_of_triple b0 b1 b2
  rw [← htriple] at hbytes
  obtain ⟨hb0, hb1, hb2⟩ := hbytes
  have hchunk : encodeChunk b0 b1 b2 padding =
      group (triple / 262144 % 64) (triple / 4096 % 64) (triple / 64 % 64) (triple % 64)
        padding := by
    simp only [htriple, encodeChunk, group, symbol_mod]
  have hv2 : padding = 2 → triple / 64 % 64 = 0 := by
    intro h
    have hb1' : b1.toNat = 0 := by rw [h1 h]; rfl
    have hb2' : b2.toNat = 0 := by rw [h2 (by omega)]; rfl
    omega
  have hv3 : 0 < padding → triple % 64 = 0 := by
    intro h
    have hb2' : b2.toNat = 0 := by rw [h2 h]; rfl
    omega
  rw [hchunk, decodeQuads_group _ _ _ _ padding (by omega) (by omega) (by omega) (by omega) hle
    hlast
    hv2 hv3 chars h, groupBytes]
  simp only [hb0, hb1, hb2]

theorem decodeQuads_encodeBytes (bytes : List UInt8) (groups index : Nat)
    (h : index + (encodeBytes bytes).length / 4 = groups) :
    decodeQuads groups index ((encodeBytes bytes).map code) = .ok bytes := by
  fun_induction encodeBytes bytes generalizing index with
  | case1 => rfl
  | case2 b0 =>
    have hgroups : index + 1 = groups := by rw [length_encodeChunk] at h; omega
    exact decodeQuads_chunk b0 0 0 (le_refl 2) (fun _ => hgroups) (fun _ => rfl) (fun _ => rfl)
      [] rfl
  | case3 b0 b1 =>
    have hgroups : index + 1 = groups := by rw [length_encodeChunk] at h; omega
    exact decodeQuads_chunk b0 b1 0 (Nat.le_succ 1) (fun _ => hgroups) (by omega) (fun _ => rfl)
      [] rfl
  | case4 b0 b1 b2 bytes ih =>
    rw [List.length_append, length_encodeChunk] at h
    exact decodeQuads_chunk b0 b1 b2 (Nat.zero_le 2) (by omega) (by omega) (by omega)
      (encodeBytes bytes) (ih _ (by omega))

theorem length_encodeBytes (bytes : List UInt8) : (encodeBytes bytes).length % 4 = 0 := by
  fun_induction encodeBytes bytes with
  | case1 => rfl
  | case2 b0 => rw [length_encodeChunk]
  | case3 b0 b1 => rw [length_encodeChunk]
  | case4 b0 b1 b2 bytes ih =>
    rw [List.length_append, length_encodeChunk]
    omega

theorem symbol_plain (n : Nat) : (symbol n).toNat < 128 ∧ symbol n ≠ '\r' ∧ symbol n ≠ '\n' := by
  have hall : ∀ k < 64, (alphabet.getD k 'A').toNat < 128 ∧ alphabet.getD k 'A' ≠ '\r' ∧
      alphabet.getD k 'A' ≠ '\n' := by decide +kernel
  exact hall (n % 64) (Nat.mod_lt n (by decide))

theorem mem_encodeBytes {c : Char} (h : c ∈ encodeBytes bytes) :
    c.toNat < 128 ∧ c ≠ '\r' ∧ c ≠ '\n' := by
  have hchunk : ∀ b0 b1 b2 padding, c ∈ encodeChunk b0 b1 b2 padding →
      c.toNat < 128 ∧ c ≠ '\r' ∧ c ≠ '\n' := by
    intro b0 b1 b2 padding hc
    simp only [encodeChunk, List.mem_cons, List.not_mem_nil, or_false] at hc
    rcases hc with rfl | rfl | rfl | rfl
    · exact symbol_plain _
    · exact symbol_plain _
    · split
      · exact symbol_plain _
      · decide
    · split
      · exact symbol_plain _
      · decide
  fun_induction encodeBytes bytes with
  | case1 => cases h
  | case2 b0 => exact hchunk _ _ _ _ h
  | case3 b0 b1 => exact hchunk _ _ _ _ h
  | case4 b0 b1 b2 bytes ih =>
    rcases List.mem_append.mp h with h | h
    · exact hchunk _ _ _ _ h
    · exact ih h

theorem symbols_encode (bytes : Bytes) :
    symbols (encode bytes) = (encodeBytes bytes.data.toList).map code := by
  have hkept : ∀ c ∈ encodeBytes bytes.data.toList, c.toNat < 128 ∧ c ≠ '\r' ∧ c ≠ '\n' :=
    fun c hc => mem_encodeBytes hc
  have hcodes : Encodings.utf8Bytes (encodeBytes bytes.data.toList) =
      (encodeBytes bytes.data.toList).map code :=
    Numbers.encoded_ascii (E := Encodings.utf8Encoding) fun c hc => (hkept c hc).1
  rw [symbols, encode, String.toList_ofList, hcodes]
  refine List.filter_eq_self.mpr fun b hb => ?_
  obtain ⟨c, hc, rfl⟩ := List.mem_map.mp hb
  obtain ⟨hascii, hreturn, hnewline⟩ := hkept c hc
  have hcode : (code c).toNat = c.toNat := by
    rw [code, UInt8.toNat_ofNat']
    omega
  have hne : ∀ d : Char, c ≠ d → c.toNat ≠ d.toNat := fun d hne heq => hne (Char.toNat_inj.mp heq)
  simp only [hcode, hne _ hreturn, hne _ hnewline, decide_false, Bool.or_self, Bool.not_false]

/-- Bytes are read back from their text. -/
theorem decode_encode (bytes : Bytes) : decode (encode bytes) = .ok bytes := by
  have hlength := length_encodeBytes bytes.data.toList
  have hquads := decodeQuads_encodeBytes bytes.data.toList
    ((encodeBytes bytes.data.toList).length / 4) 0 (by omega)
  rw [decode, symbols_encode, List.length_map, refuse, if_neg (not_not.mpr hlength), hquads]
  rfl

end Base64

theorem itemsDepth_strings (texts : List String) :
    Value.itemsDepth (texts.map Value.string) = 0 := by
  induction texts with
  | nil => rfl
  | cons text texts ih =>
    rw [List.map_cons, Value.itemsDepth, ih]
    rfl

/-- The reader reads the text of a value as that value, unless it nests to the limit. -/
def JsonLayer.Reads (L : JsonLayer) (value : Value) : Prop :=
  L.readJson (jsonText value) = if value.depth < recursionLimit then some value else none

def JsonLayer.ReadsStrings (L : JsonLayer) (texts : List String) : Prop :=
  L.Reads (.array (texts.map .string))

theorem JsonLayer.ReadsStrings.read_strings {L : JsonLayer} {texts : List String}
    (h : L.ReadsStrings texts) :
    L.readJson (JsonLayer.strings texts) = some (.array (texts.map .string)) := by
  have hdepth : (Value.array (texts.map .string)).depth < recursionLimit := by
    rw [Value.depth, itemsDepth_strings]
    decide
  rw [ReadsStrings, Reads, if_pos hdepth] at h
  exact h

theorem print_ne_nil (value : Value) : value.print goEscaped ≠ [] := by
  cases value with
  | number literal =>
    obtain ⟨c, rest, htext, -⟩ := JsonGrammar.text_head literal
    simp [Value.print, Value.pieces, JsonGrammar.chars, JsonGrammar.Piece.chars, htext]
  | bool value => cases value <;> simp [Value.print, Value.pieces, JsonGrammar.chars,
      JsonGrammar.Piece.chars]
  | null | string text =>
    simp [Value.print, Value.pieces, JsonGrammar.chars, JsonGrammar.Piece.chars, Value.quoted]
  | array | object =>
    rw [Value.print, Value.pieces]
    split <;> simp [JsonGrammar.chars, JsonGrammar.Piece.chars]

theorem jsonText_ne_empty (value : Value) : jsonText value ≠ "" := by
  intro hempty
  have hchars := congrArg String.toList hempty
  rw [jsonText, String.toList_ofList] at hchars
  exact print_ne_nil value hchars

theorem mapM_id_some {α : Type} (items : List α) : (items.map some).mapM id = some items := by
  induction items with
  | nil => rfl
  | cons item items ih =>
    rw [List.map_cons, List.mapM_cons, ih]
    rfl

theorem decodeEventIds_strings {L : JsonLayer} {ids : List EventId} (h : L.ReadsStrings ids) :
    L.decodeEventIds (JsonLayer.strings ids) = .ok ids := by
  have hids : (ids.map Value.string).mapM stringOrNull = some ids := by
    clear h
    induction ids with
    | nil => rfl
    | cons id ids ih =>
      rw [List.map_cons, List.mapM_cons, ih]
      rfl
  rw [JsonLayer.decodeEventIds, h.read_strings]
  simp only [hids]

theorem decodeTargets_strings {L : JsonLayer} (commandId : CommandId) {targets : List EntityId}
    (h : L.ReadsStrings targets) :
    decodeTargets L.readJson commandId (JsonLayer.strings targets) = .ok targets := by
  have hitems : stringItems (targets.map Value.string) = some (targets.map some) := by
    clear h
    induction targets with
    | nil => rfl
    | cons target targets ih =>
      rw [List.map_cons, stringItems, ih]
      rfl
  rw [decodeTargets, h.read_strings]
  simp only [hitems, mapM_id_some]

variable {value : Value}

namespace Json

mutual
def depth : Json → Nat
  | .array items => itemsDepth items + 1
  | .object fields => fieldsDepth fields + 1
  | _ => 0

def itemsDepth : List Json → Nat
  | [] => 0
  | item :: items => max (depth item) (itemsDepth items)

def fieldsDepth : List (String × Json) → Nat
  | [] => 0
  | (_, value) :: fields => max (depth value) (fieldsDepth fields)
end

variable {N : NumberLayer}

/-- What is written nests as deep and is read as a value of the same kind. -/
structure Writes (N : NumberLayer) (json : Json) (value : Value) : Prop where
  depth : value.depth = json.depth
  printed : ∀ l, JsonGrammar.Piece.number l ∈ value.pieces goEscaped → N.printed l = true
  read : ∃ read, ofValue N (value.mapNumbers Literal.plain) = some read ∧
    read.isObject = json.isObject ∧ read.isNull = json.isNull

structure WritesItems (N : NumberLayer) (items : List Json) (values : List Value) : Prop where
  depth : Value.itemsDepth values = itemsDepth items
  printed : ∀ l, JsonGrammar.Piece.number l ∈ Value.itemPieces goEscaped values →
    N.printed l = true
  read : ∃ read, itemsOfValues N (Value.mapItems Literal.plain values) = some read

structure WritesFields (N : NumberLayer) (fields : List (String × Json))
    (members : List (String × Value)) : Prop where
  depth : Value.membersDepth members = fieldsDepth fields
  printed : ∀ l, JsonGrammar.Piece.number l ∈ Value.memberPieces goEscaped members →
    N.printed l = true
  read : ∀ before, ∃ read,
    fieldsOfMembers N (Value.mapMembers Literal.plain members) before = some read

theorem writes_number {text : String} (h : (Json.number text).toValue N = some value) :
    Writes N (.number text) value := by
  rw [toValue] at h
  split at h
  · split at h
    · rename_i literal _ hprinted
      obtain rfl := Option.some.inj h
      obtain ⟨number, hnumber⟩ := N.read_plain literal hprinted
      refine ⟨rfl, fun l hl => ?_, .number (String.ofList number.text), ?_, rfl, rfl⟩
      · rw [Value.pieces, List.mem_singleton] at hl
        rw [JsonGrammar.Piece.number.inj hl]
        exact hprinted
      · rw [Value.mapNumbers, ofValue, hnumber]
        rfl
    · cases h
  · cases h

theorem WritesItems.cons {item : Json} {items : List Json} {values : List Value}
    (hrest : WritesItems N items values) (h : Writes N item value) :
    WritesItems N (item :: items) (value :: values) := by
  obtain ⟨first, hfirst, -⟩ := h.read
  obtain ⟨rest, hread⟩ := hrest.read
  refine ⟨?_, ?_, first :: rest, ?_⟩
  · rw [Value.itemsDepth, itemsDepth, h.depth, hrest.depth]
  · intro l hl
    cases values with
    | nil =>
      simp only [Value.itemPieces, List.cons_append, List.mem_cons, List.mem_append,
        reduceCtorEq, List.not_mem_nil, or_false, false_or] at hl
      exact h.printed l hl
    | cons next values =>
      simp only [Value.itemPieces, List.cons_append, List.mem_cons, List.mem_append,
        reduceCtorEq, false_or] at hl
      rcases hl with hl | hl
      · exact h.printed l hl
      · exact hrest.printed l hl
  · rw [Value.mapItems, itemsOfValues, hfirst, hread]
    rfl

theorem WritesFields.cons {key : String} {field : Json} {fields : List (String × Json)}
    {members : List (String × Value)} (hrest : WritesFields N fields members)
    (h : Writes N field value) :
    WritesFields N ((key, field) :: fields) ((key, value) :: members) := by
  obtain ⟨first, hfirst, -⟩ := h.read
  refine ⟨?_, ?_, fun before => ?_⟩
  · rw [Value.membersDepth, fieldsDepth, h.depth, hrest.depth]
  · intro l hl
    cases members with
    | nil =>
      simp only [Value.memberPieces, List.cons_append, List.mem_cons, List.mem_append,
        reduceCtorEq, List.not_mem_nil, or_false, false_or] at hl
      exact h.printed l hl
    | cons next members =>
      simp only [Value.memberPieces, List.cons_append, List.mem_cons, List.mem_append,
        reduceCtorEq, false_or] at hl
      rcases hl with hl | hl
      · exact h.printed l hl
      · exact hrest.printed l hl
  · obtain ⟨read, hread⟩ := hrest.read (insertField key first before)
    refine ⟨read, ?_⟩
    rw [Value.mapMembers, fieldsOfMembers, hfirst]
    exact hread

theorem WritesItems.array {items : List Json} {values : List Value}
    (h : WritesItems N items values) : Writes N (.array items) (.array values) := by
  obtain ⟨read, hread⟩ := h.read
  refine ⟨?_, fun l hl => ?_, .array read, ?_, rfl, rfl⟩
  · exact congrArg (· + 1) h.depth
  · rw [Value.pieces] at hl
    split at hl
    · simp at hl
    · simp only [List.cons_append, List.mem_cons, List.mem_append, reduceCtorEq,
        List.not_mem_nil, or_false, false_or] at hl
      exact h.printed l hl
  · rw [Value.mapNumbers, ofValue, hread]
    rfl

theorem WritesFields.object {fields : List (String × Json)} {members : List (String × Value)}
    (h : WritesFields N fields members) : Writes N (.object fields) (.object members) := by
  obtain ⟨read, hread⟩ := h.read []
  refine ⟨?_, fun l hl => ?_, .object read, ?_, rfl, rfl⟩
  · exact congrArg (· + 1) h.depth
  · rw [Value.pieces] at hl
    split at hl
    · simp at hl
    · simp only [List.cons_append, List.mem_cons, List.mem_append, reduceCtorEq,
        List.not_mem_nil, or_false, false_or] at hl
      exact h.printed l hl
  · rw [Value.mapNumbers, ofValue, hread]
    rfl

mutual
theorem writes_of_toValue {json : Json} {value : Value} (h : json.toValue N = some value) :
    Writes N json value := by
  match json with
  | .null | .bool _ | .string _ =>
    obtain rfl := Option.some.inj h
    exact ⟨rfl, fun l hl => by simp [Value.pieces] at hl, _, rfl, rfl, rfl⟩
  | .number text => exact writes_number h
  | .array items =>
    obtain ⟨values, hvalues, rfl⟩ := Option.map_eq_some_iff.mp h
    exact (writes_of_itemsToValues hvalues).array
  | .object fields =>
    obtain ⟨members, hmembers, rfl⟩ := Option.map_eq_some_iff.mp h
    exact (writes_of_fieldsToMembers hmembers).object

theorem writes_of_itemsToValues {items : List Json} {values : List Value}
    (h : itemsToValues N items = some values) : WritesItems N items values := by
  match items with
  | [] =>
    obtain rfl := Option.some.inj h
    exact ⟨rfl, fun l hl => by simp [Value.itemPieces] at hl, _, rfl⟩
  | item :: items =>
    obtain ⟨value, hvalue, h⟩ := Option.bind_eq_some_iff.mp h
    obtain ⟨rest, hrest, h⟩ := Option.bind_eq_some_iff.mp h
    obtain rfl := Option.some.inj h
    exact (writes_of_itemsToValues hrest).cons (writes_of_toValue hvalue)

theorem writes_of_fieldsToMembers {fields : List (String × Json)}
    {members : List (String × Value)} (h : fieldsToMembers N fields = some members) :
    WritesFields N fields members := by
  match fields with
  | [] =>
    obtain rfl := Option.some.inj h
    exact ⟨rfl, fun l hl => by simp [Value.memberPieces] at hl, fun before => ⟨before, rfl⟩⟩
  | (key, field) :: fields =>
    obtain ⟨value, hvalue, h⟩ := Option.bind_eq_some_iff.mp h
    obtain ⟨rest, hrest, h⟩ := Option.bind_eq_some_iff.mp h
    obtain rfl := Option.some.inj h
    exact (writes_of_fieldsToMembers hrest).cons (writes_of_toValue hvalue)
end

end Json

theorem fromUTF8_utf8Bytes (text : List Char) :
    String.fromUTF8? ⟨(Encodings.utf8Bytes text).toArray⟩ = some (String.ofList text) := by
  have hbytes : (⟨(Encodings.utf8Bytes text).toArray⟩ : ByteArray) =
      (String.ofList text).toByteArray := by
    have hlist := Encodings.utf8Bytes_toList (String.ofList text)
    rw [String.toList_ofList] at hlist
    rw [hlist]
  rw [hbytes, String.fromUTF8?, dif_pos (String.ofList text).isValidUTF8]
  rfl

theorem canonicalText_done (text : List Char) :
    canonicalText (.done (Encodings.utf8Bytes text)) = .ok (String.ofList text) := by
  rw [canonicalText, fromUTF8_utf8Bytes]

theorem canonicalText_eq_ok {N : NumberLayer} {json : Json} {text : String}
    (hvalue : json.toValue N = some value) (h : canonicalText (Numbers.canonicalNumbers
      (Encodings.utf8Bytes (value.print goEscaped))) = .ok text) :
    text = jsonText (value.mapNumbers Literal.plain) := by
  have hwrites := Json.writes_of_toValue hvalue
  have hshort : ∀ l, JsonGrammar.Piece.number l ∈ document goEscaped value →
      l.text.length < 2 ^ 29 := by
    intro l hl
    simp only [document, List.cons_append, List.mem_cons, List.mem_append, reduceCtorEq,
      List.not_mem_nil, or_false, false_or] at hl
    exact N.short l (hwrites.printed l hl)
  cases hdone : Numbers.canonicalNumbers (Encodings.utf8Bytes (value.print goEscaped)) with
  | panicked =>
    rw [hdone] at h
    cases h
  | refused error =>
    rw [hdone] at h
    cases error <;> cases h
  | done bytes =>
    rw [← chars_document] at hdone
    have hbytes := Numbers.canonicalNumbers_eq_done (document_isDocument value) hshort hdone
    rw [Numbers.plainPieces, document_mapNumbers, chars_document] at hbytes
    rw [chars_document] at hdone
    rw [hdone, hbytes] at h
    have hread := canonicalText_done ((value.mapNumbers Literal.plain).print goEscaped)
    exact (Except.ok.inj (hread.symm.trans h)).symm

namespace Rejection

variable {L : JsonLayer} {r : Rejection} {text : String}

def toJson (r : Rejection) : Json :=
  .object [("code", .string r.code), ("message", .string r.message),
    ("details", r.details.getD .null)]

theorem toValue_eq (N : NumberLayer) (r : Rejection) : r.toValue N = r.toJson.toValue N := by
  rw [toValue]
  simp only [toJson, Json.toValue, Json.fieldsToMembers]
  cases (r.details.getD .null).toValue N <;> rfl

theorem toJson_depth (r : Rejection) : r.toJson.depth = (r.details.getD .null).depth + 1 := by
  simp [toJson, Json.depth, Json.fieldsDepth]

/-- The reader reads the canonical text of the rejection. -/
def TextRead (L : JsonLayer) (r : Rejection) : Prop :=
  ∀ value, r.toValue L.numbers = some value → L.Reads (value.mapNumbers Literal.plain)

/-- A stored rejection is read back, unless it nests too deep. -/
theorem readRejection_of_ok (hreads : r.TextRead L) (h : L.rejection r = .ok text)
    (hobject : ∀ details, r.details = some details → details.isObject = true) :
    if (r.details.getD .null).depth + 1 < recursionLimit then
      ∃ details, L.readRejection text = .ok ⟨r.code, r.message, details⟩
    else ∃ message, L.readRejection text = .error message := by
  rw [JsonLayer.rejection, toValue_eq] at h
  cases hvalue : r.toJson.toValue L.numbers with
  | none =>
    rw [hvalue] at h
    cases h
  | some value =>
    rw [hvalue] at h
    have htext := canonicalText_eq_ok hvalue h
    have hread := hreads value (by rw [toValue_eq, hvalue])
    have hdepth : (value.mapNumbers Literal.plain).depth = (r.details.getD .null).depth + 1 := by
      rw [depth_mapNumbers, (Json.writes_of_toValue hvalue).depth, toJson_depth]
    rw [JsonLayer.Reads, hdepth, ← htext] at hread
    obtain ⟨details, hdetails, hmembers⟩ : ∃ details,
        (r.details.getD .null).toValue L.numbers = some details ∧
        value = .object [("code", .string r.code), ("message", .string r.message),
          ("details", details)] := by
      rw [← toValue_eq, toValue] at hvalue
      obtain ⟨details, hdetails, hvalue⟩ := Option.bind_eq_some_iff.mp hvalue
      exact ⟨details, hdetails, (Option.some.inj hvalue).symm⟩
    obtain ⟨read, hofValue, hreadObject, hreadNull⟩ := (Json.writes_of_toValue hdetails).read
    split
    · rename_i hlimit
      rw [if_pos hlimit] at hread
      refine ⟨if read.isNull then none else some read, ?_⟩
      have hrejection : ofValue L.numbers (Value.mapNumbers Literal.plain value) =
          some ⟨r.code, r.message, if read.isNull then none else some read⟩ := by
        rw [hmembers]
        change ofFields L.numbers (.string r.code) (some (.string r.message))
          (some (details.mapNumbers Literal.plain)) = _
        simp only [ofFields, detailsOf, Option.getD_some, hofValue]
        rfl
      have hdetails : (if read.isNull then none else some read : Option Json).any
          (fun details => !details.isObject) = false := by
        cases hnone : r.details with
        | none =>
          rw [hnone] at hreadNull
          rw [hreadNull]
          rfl
        | some original =>
          rw [hnone, Option.getD_some, hobject original hnone] at hreadObject
          cases read <;> simp_all [Json.isObject, Json.isNull]
      simp only [JsonLayer.readRejection, hread, Option.bind_eq_bind, Option.bind_some, hrejection,
        hdetails, Bool.false_eq_true, if_false]
    · rename_i hlimit
      rw [if_neg hlimit] at hread
      refine ⟨L.jsonError text, ?_⟩
      rw [JsonLayer.readRejection, hread]
      rfl

end Rejection

end EventStore
