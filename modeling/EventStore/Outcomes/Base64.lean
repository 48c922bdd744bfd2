import EventStore.Outcomes.Texts

/-!
The base64 codec as a whole: how long a text is, which texts are read, and that a text that is
read is the one its bytes are written as, but for the bits that its last symbol does not use.
-/
namespace EventStore
namespace Base64

open Result

/-! The decoder again, with `none` where the source would panic. -/

def minus (a b : Nat) : Option Nat := if b ≤ a then some (a - b) else none

def byte (n : Nat) : Option Nat := if n < 256 then some n else none

/-- A position of the text, which the machine integer that counts its symbols can hold. -/
def position (length n : Nat) : Option Nat := if n < length then some n else none

def decodeSymbolChecked (symbol : UInt8) : Option (Option Nat) :=
  let c := symbol.toNat
  if 'A'.toNat ≤ c ∧ c ≤ 'Z'.toNat then do return some (← minus c 'A'.toNat)
  else if 'a'.toNat ≤ c ∧ c ≤ 'z'.toNat then do
    return some (← byte ((← minus c 'a'.toNat) + 26))
  else if '0'.toNat ≤ c ∧ c ≤ '9'.toNat then do
    return some (← byte ((← minus c '0'.toNat) + 52))
  else if c = '+'.toNat then some (some 62)
  else if c = '/'.toNat then some (some 63)
  else some none

def symbolValueChecked (length index offset padding : Nat) (symbol : UInt8) :
    ExceptT String Option Nat := do
  if (← minus 4 padding) ≤ offset then return 0
  match ← decodeSymbolChecked symbol with
  | some value => return value
  | none => throw (illegalAt (← position length (index * 4 + offset)))

def decodeQuadChecked (length index : Nat) (s0 s1 s2 s3 : UInt8) :
    ExceptT String Option (List UInt8) := do
  let last ← minus (length / 4) 1
  let padding := ([s3, s2, s1, s0].takeWhile isPad).length
  if 2 < padding ∨ (0 < padding ∧ index ≠ last) then
    throw (illegalAt (← position length (index * 4)))
  let v0 ← symbolValueChecked length index 0 padding s0
  let v1 ← symbolValueChecked length index 1 padding s1
  let v2 ← symbolValueChecked length index 2 padding s2
  let v3 ← symbolValueChecked length index 3 padding s3
  let triple := v0 * 262144 + v1 * 4096 + v2 * 64 + v3
  return .ofNat (triple / 65536) :: (if padding < 2 then [.ofNat (triple / 256)] else []) ++
    if padding < 1 then [.ofNat triple] else []

def decodeQuadsChecked (length index : Nat) : List UInt8 → ExceptT String Option (List UInt8)
  | s0 :: s1 :: s2 :: s3 :: symbols => do
    let bytes ← decodeQuadChecked length index s0 s1 s2 s3
    return bytes ++ (← decodeQuadsChecked length (index + 1) symbols)
  | _ => return []

def decodeChecked (text : String) : Option (Except String Bytes) := ExceptT.run do
  if (symbols text).length % 4 ≠ 0 then
    throw ("illegal base64 data: length " ++ toString (symbols text).length)
  let bytes ← decodeQuadsChecked (symbols text).length 0 (symbols text)
  return ⟨bytes.toArray⟩

theorem decodeSymbolChecked_eq (symbol : UInt8) :
    decodeSymbolChecked symbol = some (decodeSymbol symbol) := by
  have hall : ∀ n < 256, decodeSymbolChecked (.ofNat n) = some (decodeSymbol (.ofNat n)) := by
    decide +kernel
  have h := hall symbol.toNat symbol.toNat_lt
  rwa [UInt8.ofNat_toNat] at h

variable {index padding length : Nat}

theorem symbolValueChecked_eq {offset : Nat} (symbol : UInt8) (hpadding : padding ≤ 4)
    (hindex : index * 4 + offset < length) :
    symbolValueChecked length index offset padding symbol =
      some (symbolValue index offset padding symbol) := by
  rw [symbolValueChecked, symbolValue, minus, if_pos hpadding]
  change (if 4 - padding ≤ offset then _ else _ : ExceptT String Option Nat) = _
  by_cases hle : 4 - padding ≤ offset
  · rw [if_pos hle, if_pos hle]
    rfl
  · rw [if_neg hle, if_neg hle, decodeSymbolChecked_eq, position, if_pos hindex]
    cases decodeSymbol symbol <;> rfl

theorem decodeQuadChecked_eq (s0 s1 s2 s3 : UInt8) (hindex : index * 4 + 4 ≤ length) :
    decodeQuadChecked length index s0 s1 s2 s3 =
      some (decodeQuad index (index + 1 = length / 4) s0 s1 s2 s3) := by
  have hlast : minus (length / 4) 1 = some (length / 4 - 1) := if_pos (by omega)
  have hindex' : position length (index * 4) = some (index * 4) := if_pos (by omega)
  have hpadding : ([s3, s2, s1, s0].takeWhile isPad).length ≤ 4 :=
    (List.takeWhile_sublist _).length_le
  rw [decodeQuadChecked, decodeQuad, hlast, hindex']
  revert hpadding
  generalize ([s3, s2, s1, s0].takeWhile isPad).length = padding
  intro hpadding
  change (if 2 < padding ∨ (0 < padding ∧ index ≠ length / 4 - 1) then _ else _ :
    ExceptT String Option (List UInt8)) = _
  by_cases hrefuse : 2 < padding ∨ (0 < padding ∧ index ≠ length / 4 - 1)
  · rw [if_pos hrefuse, refuse, if_pos (by simp only [decide_eq_false_iff_not]; omega)]
    rfl
  · rw [if_neg hrefuse, refuse, if_neg (by simp only [decide_eq_false_iff_not]; omega),
      symbolValueChecked_eq s0 hpadding (by omega), symbolValueChecked_eq s1 hpadding (by omega),
      symbolValueChecked_eq s2 hpadding (by omega), symbolValueChecked_eq s3 hpadding (by omega)]
    cases symbolValue index 0 padding s0 with
    | error e => rfl
    | ok v0 =>
      cases symbolValue index 1 padding s1 with
      | error e => rfl
      | ok v1 =>
        cases symbolValue index 2 padding s2 with
        | error e => rfl
        | ok v2 => cases symbolValue index 3 padding s3 <;> rfl

theorem decodeQuadsChecked_eq {symbols : List UInt8} (h : index * 4 + symbols.length ≤ length) :
    decodeQuadsChecked length index symbols =
      some (decodeQuads (length / 4) index symbols) := by
  fun_induction decodeQuads (length / 4) index symbols with
  | case1 index s0 s1 s2 s3 symbols ih =>
    simp only [List.length_cons] at h
    rw [decodeQuadsChecked, decodeQuadChecked_eq s0 s1 s2 s3 (by omega), ih (by omega)]
    cases decodeQuad index (index + 1 = length / 4) s0 s1 s2 s3 with
    | error e => rfl
    | ok bytes => cases decodeQuads (length / 4) (index + 1) symbols <;> rfl
  | case2 index symbols hshort =>
    rw [decodeQuadsChecked]
    · rfl
    · exact hshort

/-- No text makes the decoder panic. -/
theorem decodeChecked_eq (text : String) : decodeChecked text = some (decode text) := by
  rw [decodeChecked, decode, refuse, decodeQuadsChecked_eq (by omega)]
  by_cases hlength : (symbols text).length % 4 ≠ 0
  · rw [if_pos hlength, if_pos hlength]
    rfl
  · rw [if_neg hlength, if_neg hlength]
    cases decodeQuads ((symbols text).length / 4) 0 (symbols text) <;> rfl

/-! Which texts are read. -/

def unbroken (text : String) : List Char := text.toList.filter fun c => c ≠ '\r' ∧ c ≠ '\n'

/-- Groups of four symbols of the alphabet, the last of which may end in one or two `=`. -/
def Accepted : List Char → Prop
  | [] => True
  | c0 :: c1 :: c2 :: c3 :: chars =>
    c0 ∈ alphabet ∧ c1 ∈ alphabet ∧ (c2 ∈ alphabet ∧ c3 ∈ alphabet ∧ Accepted chars ∨
      chars = [] ∧ (c2 ∈ alphabet ∨ c2 = '=') ∧ c3 = '=')
  | _ => False

/-- The symbol whose value is the greatest multiple of `unit` that `c`'s has room for. -/
def cleared (unit : Nat) (c : Char) : Char := symbol (alphabet.idxOf c / unit * unit)

/-- The unused low bits of the last symbol cleared: four with one byte left, two with two. -/
def canonical : List Char → List Char
  | [c0, c1, c2, c3] =>
    if c3 ≠ '=' then [c0, c1, c2, c3]
    else if c2 ≠ '=' then [c0, c1, cleared 4 c2, c3] else [c0, cleared 16 c1, c2, c3]
  | c0 :: c1 :: c2 :: c3 :: chars => c0 :: c1 :: c2 :: c3 :: canonical chars
  | chars => chars

theorem length_encodeBytes_eq (bytes : List UInt8) :
    (encodeBytes bytes).length = 4 * ((bytes.length + 2) / 3) := by
  fun_induction encodeBytes bytes with
  | case1 => rfl
  | case2 b0 => rw [length_encodeChunk, List.length_singleton]
  | case3 b0 b1 => rw [length_encodeChunk, List.length_cons, List.length_singleton]
  | case4 b0 b1 b2 bytes ih =>
    simp only [List.length_append, length_encodeChunk, List.length_cons, ih]
    omega

variable {v : Nat} {s : UInt8}

theorem decodeSymbol_eq_some : decodeSymbol s = some v ↔ v < 64 ∧ s = code (symbol v) := by
  constructor
  · intro h
    have hall : ∀ n < 256, ∀ w ∈ decodeSymbol (.ofNat n), w < 64 ∧ n = (code (symbol w)).toNat := by
      decide +kernel
    rw [← UInt8.ofNat_toNat (x := s)] at h
    obtain ⟨hlt, heq⟩ := hall s.toNat s.toNat_lt v h
    exact ⟨hlt, UInt8.toNat_inj.mp heq⟩
  · rintro ⟨hlt, rfl⟩
    rw [decodeSymbol_symbol, Nat.mod_eq_of_lt hlt]

theorem isPad_iff : isPad s = true ↔ s = code '=' := by
  rw [isPad, decide_eq_true_iff, ← UInt8.toNat_inj]
  rfl

theorem idxOf_symbol (h : v < 64) : alphabet.idxOf (symbol v) = v := by
  have hall : ∀ k < 64, alphabet.idxOf (symbol k) = k := by decide +kernel
  exact hall v h

theorem symbol_ne_pad (v : Nat) : symbol v ≠ '=' := by
  have hall : ∀ k < 64, alphabet.getD k 'A' ≠ '=' := by decide +kernel
  exact hall (v % 64) (Nat.mod_lt v (by decide))

theorem mem_alphabet {c : Char} : c ∈ alphabet ↔ ∃ v < 64, symbol v = c := by
  constructor
  · intro h
    have hlt : alphabet.idxOf c < alphabet.length := List.idxOf_lt_length_of_mem h
    have hmod : alphabet.idxOf c % 64 = alphabet.idxOf c := Nat.mod_eq_of_lt hlt
    refine ⟨_, hlt, ?_⟩
    rw [symbol, hmod, List.getD_eq_getElem _ _ hlt, List.getElem_idxOf]
  · rintro ⟨v, hlt, rfl⟩
    have hall : ∀ k < 64, symbol k ∈ alphabet := by decide +kernel
    exact hall v hlt

theorem symbolValue_ok {offset : Nat} (h : symbolValue index offset padding s = .ok v) :
    if offset < 4 - padding then v < 64 ∧ s = code (symbol v) else v = 0 := by
  unfold symbolValue at h
  split at h
  · rename_i hle
    rw [if_neg (by omega)]
    exact (Except.ok.inj h).symm
  · rename_i hlt
    rw [if_pos (by omega)]
    cases hs : decodeSymbol s with
    | none => rw [hs] at h; cases h
    | some w =>
      rw [hs] at h
      obtain rfl := Except.ok.inj h
      exact decodeSymbol_eq_some.mp hs

/-- What a group of symbols is read as. -/
theorem decodeQuad_ok {last : Bool} {s0 s1 s2 s3 : UInt8} {bytes : List UInt8}
    (h : decodeQuad index last s0 s1 s2 s3 = .ok bytes) :
    ∃ v0 < 64, ∃ v1 < 64, ∃ v2 < 64, ∃ v3 < 64, ∃ padding ≤ 2, (0 < padding → last = true) ∧
      [s0, s1, s2, s3] = (group v0 v1 v2 v3 padding).map code ∧
      (padding = 2 → v2 = 0) ∧ (0 < padding → v3 = 0) ∧
      bytes = groupBytes v0 v1 v2 v3 padding := by
  obtain ⟨padding, hpadding⟩ : ∃ n, ([s3, s2, s1, s0].takeWhile isPad).length = n := ⟨_, rfl⟩
  rw [decodeQuad, hpadding] at h
  obtain ⟨hrefuse, h⟩ := seq_eq_ok.mp h
  obtain ⟨v0, h0, h⟩ := bind_eq_ok.mp h
  obtain ⟨v1, h1, h⟩ := bind_eq_ok.mp h
  obtain ⟨v2, h2, h⟩ := bind_eq_ok.mp h
  obtain ⟨v3, h3, h⟩ := bind_eq_ok.mp h
  obtain rfl := Except.ok.inj h
  have h0' := symbolValue_ok h0
  have h1' := symbolValue_ok h1
  have h2' := symbolValue_ok h2
  have h3' := symbolValue_ok h3
  rw [refuse_eq_ok, not_or, not_and, Bool.not_eq_false] at hrefuse
  have hle : padding ≤ 2 := Nat.le_of_not_lt hrefuse.1
  rw [if_pos (by omega)] at h0' h1'
  have hpads : (0 < padding → s3 = code '=') ∧ (padding = 2 → s2 = code '=') := by
    rw [← isPad_iff, ← isPad_iff, ← hpadding]
    cases h3 : isPad s3 <;> cases h2 : isPad s2 <;> simp [List.takeWhile, h3, h2]
  rcases (by omega : padding = 0 ∨ padding = 1 ∨ padding = 2) with rfl | rfl | rfl
  · rw [if_pos (by decide)] at h2' h3'
    refine ⟨v0, h0'.1, v1, h1'.1, v2, h2'.1, v3, h3'.1, 0, hle, hrefuse.2, ?_,
      fun h => absurd h (by decide), fun h => absurd h (by decide), rfl⟩
    rw [h0'.2, h1'.2, h2'.2, h3'.2]
    rfl
  · rw [if_pos (by decide)] at h2'
    rw [if_neg (by decide)] at h3'
    refine ⟨v0, h0'.1, v1, h1'.1, v2, h2'.1, v3, by omega, 1, hle, hrefuse.2, ?_,
      fun h => absurd h (by decide), fun _ => h3', rfl⟩
    rw [h0'.2, h1'.2, h2'.2, hpads.1 (by decide)]
    rfl
  · rw [if_neg (by decide)] at h2' h3'
    refine ⟨v0, h0'.1, v1, h1'.1, v2, by omega, v3, by omega, 2, hle, hrefuse.2, ?_,
      fun _ => h2', fun _ => h3', rfl⟩
    rw [h0'.2, h1'.2, hpads.1 (by decide), hpads.2 rfl]
    rfl

theorem symbol_eq {n : Nat} (h : n % 64 = v) : symbol n = symbol v := by
  rw [← h, symbol_mod]

variable {v0 v1 v2 v3 : Nat}

/-- A full group is written back as it was read. -/
theorem encodeBytes_group (h0 : v0 < 64) (h1 : v1 < 64) (h2 : v2 < 64) (h3 : v3 < 64)
    (bytes : List UInt8) :
    encodeBytes (groupBytes v0 v1 v2 v3 0 ++ bytes) = group v0 v1 v2 v3 0 ++ encodeBytes bytes := by
  change encodeChunk _ _ _ 0 ++ encodeBytes bytes = _
  congr 1
  simp only [encodeChunk, group, Nat.reduceLT, if_true, UInt8.toNat_ofNat']
  simp only [List.cons.injEq, and_true]
  exact ⟨symbol_eq (by omega), symbol_eq (by omega), symbol_eq (by omega), symbol_eq (by omega)⟩

/-- The last group is written back without the bits its last symbol does not use. -/
theorem encodeBytes_last (h0 : v0 < 64) (h1 : v1 < 64) (h2 : v2 < 64) (h3 : v3 < 64)
    (hle : padding ≤ 2) (hv2 : padding = 2 → v2 = 0) (hv3 : 0 < padding → v3 = 0) :
    encodeBytes (groupBytes v0 v1 v2 v3 padding) = canonical (group v0 v1 v2 v3 padding) := by
  rcases (by omega : padding = 0 ∨ padding = 1 ∨ padding = 2) with rfl | rfl | rfl
  · have hfull := encodeBytes_group h0 h1 h2 h3 []
    rw [List.append_nil] at hfull
    rw [hfull, group, canonical]
    simp [symbol_ne_pad, encodeBytes]
  · obtain rfl := hv3 (by decide)
    rw [group, canonical]
    simp only [Nat.reduceLT, if_true, if_false, lt_self_iff_false, ne_eq, not_true_eq_false,
      symbol_ne_pad, not_false_eq_true, cleared, idxOf_symbol h2]
    change encodeChunk _ _ 0 1 = _
    simp only [encodeChunk, Nat.reduceLT, if_true, if_false, lt_self_iff_false, UInt8.toNat_ofNat',
      UInt8.toNat_zero, List.cons.injEq, and_true]
    exact ⟨symbol_eq (by omega), symbol_eq (by omega), symbol_eq (by omega)⟩
  · obtain rfl := hv3 (by decide)
    obtain rfl := hv2 rfl
    rw [group, canonical]
    simp only [Nat.reduceLT, if_false, lt_self_iff_false, ne_eq, not_true_eq_false, cleared,
      idxOf_symbol h1]
    change encodeChunk _ 0 0 2 = _
    simp only [encodeChunk, Nat.reduceLT, if_false, lt_self_iff_false, UInt8.toNat_ofNat',
      UInt8.toNat_zero, List.cons.injEq, and_true]
    exact ⟨symbol_eq (by omega), symbol_eq (by omega)⟩

theorem symbol_mem (h : v < 64) : symbol v ∈ alphabet := mem_alphabet.mpr ⟨v, h, rfl⟩

theorem canonical_group (chars : List Char) :
    canonical (group v0 v1 v2 v3 0 ++ chars) = group v0 v1 v2 v3 0 ++ canonical chars := by
  cases chars with
  | nil =>
    change (if symbol v3 ≠ '=' then group v0 v1 v2 v3 0 else _) = _
    rw [if_pos (symbol_ne_pad v3)]
    rfl
  | cons c chars => rfl

/-- What is read is accepted, and its bytes are written as the same text. -/
theorem decodeQuads_ok {groups : Nat} {symbols bytes : List UInt8} (hfour : symbols.length % 4 = 0)
    (hgroups : index + symbols.length / 4 = groups)
    (h : decodeQuads groups index symbols = .ok bytes) :
    ∃ chars, symbols = chars.map code ∧ Accepted chars ∧ encodeBytes bytes = canonical chars := by
  fun_induction decodeQuads groups index symbols generalizing bytes with
  | case1 index s0 s1 s2 s3 symbols ih =>
    simp only [List.length_cons] at hfour hgroups
    obtain ⟨read, hread, h⟩ := bind_eq_ok.mp h
    obtain ⟨more, hmore, h⟩ := bind_eq_ok.mp h
    obtain rfl := Except.ok.inj h
    obtain ⟨v0, h0, v1, h1, v2, h2, v3, h3, padding, hle, hlast, hcodes, hv2, hv3, rfl⟩ :=
      decodeQuad_ok hread
    by_cases hfull : padding = 0
    · subst hfull
      obtain ⟨chars, rfl, hchars, hencoded⟩ := ih (by omega) (by omega) hmore
      refine ⟨group v0 v1 v2 v3 0 ++ chars, ?_, ?_, ?_⟩
      · rw [List.map_append, ← hcodes]
        rfl
      · exact ⟨symbol_mem h0, symbol_mem h1, .inl ⟨symbol_mem h2, symbol_mem h3, hchars⟩⟩
      · rw [encodeBytes_group h0 h1 h2 h3, canonical_group, hencoded]
    · have hend : index + 1 = groups := of_decide_eq_true (hlast (by omega))
      obtain rfl : symbols = [] := List.length_eq_zero_iff.mp (by omega)
      obtain rfl := Except.ok.inj hmore
      refine ⟨group v0 v1 v2 v3 padding, hcodes,
        ⟨symbol_mem h0, symbol_mem h1, .inr ⟨rfl, ?_, ?_⟩⟩, ?_⟩
      · split
        · exact .inl (symbol_mem h2)
        · exact .inr rfl
      · rw [if_neg (by omega)]
      · rw [List.append_nil, encodeBytes_last h0 h1 h2 h3 hle hv2 hv3]
  | case2 symbols index hshort =>
    obtain rfl := Except.ok.inj h
    rcases symbols with _ | ⟨s0, _ | ⟨s1, _ | ⟨s2, _ | ⟨s3, symbols⟩⟩⟩⟩
    · exact ⟨[], rfl, trivial, rfl⟩
    · exact absurd hfour (by simp)
    · exact absurd hfour (by simp)
    · exact absurd hfour (by simp)
    · exact absurd rfl (hshort s0 s1 s2 s3 symbols)

variable {chars : List Char}

theorem decodeQuads_accepted {groups : Nat} (h : Accepted chars) (index : Nat)
    (hgroups : index + chars.length / 4 = groups) :
    ∃ bytes, decodeQuads groups index (chars.map code) = .ok bytes := by
  fun_induction Accepted chars generalizing index with
  | case1 => exact ⟨[], rfl⟩
  | case2 c0 c1 c2 c3 chars ih =>
    simp only [List.length_cons] at hgroups
    obtain ⟨hc0, hc1, h⟩ := h
    obtain ⟨v0, h0, rfl⟩ := mem_alphabet.mp hc0
    obtain ⟨v1, h1, rfl⟩ := mem_alphabet.mp hc1
    rcases h with ⟨hc2, hc3, h⟩ | ⟨rfl, hc2 | rfl, rfl⟩
    · obtain ⟨v2, h2, rfl⟩ := mem_alphabet.mp hc2
      obtain ⟨v3, h3, rfl⟩ := mem_alphabet.mp hc3
      obtain ⟨bytes, hbytes⟩ := ih h (index + 1) (by omega)
      exact ⟨_, decodeQuads_group v0 v1 v2 v3 0 h0 h1 h2 h3 (by omega) (by omega) (by omega)
        (by omega) chars hbytes⟩
    · obtain ⟨v2, h2, rfl⟩ := mem_alphabet.mp hc2
      exact ⟨_, decodeQuads_group v0 v1 v2 0 1 h0 h1 h2 (by omega) (by omega) (fun _ => hgroups)
        (by omega) (fun _ => rfl) [] rfl⟩
    · exact ⟨_, decodeQuads_group v0 v1 0 0 2 h0 h1 (by omega) (by omega) (by omega)
        (fun _ => hgroups) (fun _ => rfl) (fun _ => rfl) [] rfl⟩
  | case3 chars _ _ => exact h.elim

theorem filter_utf8EncodeChar (c : Char) :
    (String.utf8EncodeChar c).filter (fun b => !(b.toNat = '\r'.toNat || b.toNat = '\n'.toNat)) =
      if c ≠ '\r' ∧ c ≠ '\n' then String.utf8EncodeChar c else [] := by
  by_cases hascii : c.toNat < 128
  · have hcode : String.utf8EncodeChar c = [code c] := Encodings.utf8Encoding.encode_ascii c hascii
    have hunit : (code c).toNat = c.toNat := Encodings.utf8Encoding.code_unit c.toNat hascii
    simp only [hcode, List.filter_singleton, hunit, Char.toNat_inj]
    by_cases hr : c = '\r' <;> by_cases hn : c = '\n' <;> simp [hr, hn]
  · have hkept : ∀ d : Char, d.toNat < 128 → c ≠ d := fun d hd heq => hascii (heq ▸ hd)
    rw [if_pos ⟨hkept _ (by decide), hkept _ (by decide)⟩]
    refine List.filter_eq_self.mpr fun b hb => ?_
    have hlarge := Encodings.le_of_mem_utf8EncodeChar (Nat.le_of_not_lt hascii) hb
    have hne : ∀ n < 128, b.toNat ≠ n := fun n hn => by omega
    simp only [hne _ (show '\r'.toNat < 128 by decide), hne _ (show '\n'.toNat < 128 by decide),
      decide_false, Bool.or_self, Bool.not_false]

theorem symbols_eq (text : String) : symbols text = Encodings.utf8Bytes (unbroken text) := by
  rw [symbols, unbroken, Encodings.utf8Bytes, Encodings.utf8Bytes]
  induction text.toList with
  | nil => rfl
  | cons c chars ih =>
    rw [List.flatMap_cons, List.filter_append, ih, filter_utf8EncodeChar, List.filter_cons]
    by_cases hkept : c ≠ '\r' ∧ c ≠ '\n' <;> simp [hkept]

theorem accepted_ascii (h : Accepted chars) : ∀ c ∈ chars, c.toNat < 128 := by
  have halphabet : ∀ c ∈ alphabet, c.toNat < 128 := by
    intro c hc
    obtain ⟨v, -, rfl⟩ := mem_alphabet.mp hc
    exact (symbol_plain v).1
  fun_induction Accepted chars with
  | case1 => exact fun c hc => absurd hc List.not_mem_nil
  | case2 c0 c1 c2 c3 chars ih =>
    obtain ⟨h0, h1, h⟩ := h
    have hrest : c2.toNat < 128 ∧ c3.toNat < 128 ∧ ∀ c ∈ chars, c.toNat < 128 := by
      rcases h with ⟨h2, h3, h⟩ | ⟨rfl, h2 | rfl, rfl⟩
      · exact ⟨halphabet c2 h2, halphabet c3 h3, ih h⟩
      · exact ⟨halphabet c2 h2, by decide, fun c hc => absurd hc List.not_mem_nil⟩
      · exact ⟨by decide, by decide, fun c hc => absurd hc List.not_mem_nil⟩
    simp only [List.forall_mem_cons]
    exact ⟨halphabet c0 h0, halphabet c1 h1, hrest⟩
  | case3 chars _ _ => exact h.elim

theorem utf8Bytes_accepted (h : Accepted chars) : Encodings.utf8Bytes chars = chars.map code :=
  Numbers.encoded_ascii (E := Encodings.utf8Encoding) (accepted_ascii h)

theorem length_accepted (h : Accepted chars) : chars.length % 4 = 0 := by
  fun_induction Accepted chars with
  | case1 => rfl
  | case2 c0 c1 c2 c3 chars ih =>
    rw [List.length_cons, List.length_cons, List.length_cons, List.length_cons]
    rcases h.2.2 with ⟨-, -, h⟩ | ⟨rfl, -⟩
    · have := ih h
      omega
    · rfl
  | case3 chars _ _ => exact h.elim

theorem decode_ok {text : String} {bytes : Bytes} (h : decode text = .ok bytes) :
    Accepted (unbroken text) ∧ (encode bytes).toList = canonical (unbroken text) := by
  obtain ⟨hlength, h⟩ := seq_eq_ok.mp h
  obtain ⟨read, hread, h⟩ := bind_eq_ok.mp h
  obtain rfl := Except.ok.inj h
  rw [refuse_eq_ok, not_not] at hlength
  obtain ⟨chars, hchars, haccepted, hencoded⟩ := decodeQuads_ok hlength (Nat.zero_add _) hread
  rw [symbols_eq, ← utf8Bytes_accepted haccepted] at hchars
  rw [Encodings.utf8Bytes_strictMono.injective hchars, encode, String.toList_ofList]
  exact ⟨haccepted, hencoded⟩

theorem decode_accepted {text : String} (h : Accepted (unbroken text)) :
    ∃ bytes, decode text = .ok bytes := by
  have hsymbols : symbols text = (unbroken text).map code := by
    rw [symbols_eq, utf8Bytes_accepted h]
  have hlength := length_accepted h
  obtain ⟨read, hread⟩ := decodeQuads_accepted h 0 (Nat.zero_add _)
  refine ⟨⟨read.toArray⟩, ?_⟩
  rw [decode, hsymbols, List.length_map, refuse, if_neg (not_not.mpr hlength), hread]
  rfl

/-- Encoding loses nothing; decoding answers for every text, and reads exactly the accepted ones. -/
theorem base64_exact :
    (∀ bytes : Bytes, decode (encode bytes) = .ok bytes ∧
      (encode bytes).length = 4 * ((bytes.size + 2) / 3)) ∧
    ∀ text : String, decodeChecked text = some (decode text) ∧
      ((∃ bytes, decode text = .ok bytes) ↔ Accepted (unbroken text)) ∧
      (Accepted (unbroken text) ↔
        ∃ bytes, decode text = .ok bytes ∧ (encode bytes).toList = canonical (unbroken text)) := by
  refine ⟨fun bytes => ⟨decode_encode bytes, ?_⟩, fun text => ⟨decodeChecked_eq text, ?_, ?_⟩⟩
  · rw [encode, String.length_ofList, length_encodeBytes_eq]
    rfl
  · refine ⟨?_, decode_accepted⟩
    rintro ⟨bytes, h⟩
    exact (decode_ok h).1
  · constructor
    · intro h
      obtain ⟨bytes, hbytes⟩ := decode_accepted h
      exact ⟨bytes, hbytes, (decode_ok hbytes).2⟩
    · rintro ⟨bytes, h, _⟩
      exact (decode_ok h).1

end Base64
end EventStore
