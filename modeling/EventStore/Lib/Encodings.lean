import Mathlib

/-!
Encodings of text and of byte strings. No character's bytes start another's, so texts compare by
their UTF-8 bytes as by their code points; a byte string behind its length can be read back.
-/
namespace Encodings

/-- The first list is smaller where they first differ, and they do differ. -/
inductive Diverges {β : Type*} [LT β] : List β → List β → Prop
  | here {x y : β} (h : x < y) (xs ys : List β) : Diverges (x :: xs) (y :: ys)
  | later (x : β) {xs ys : List β} (h : Diverges xs ys) : Diverges (x :: xs) (x :: ys)

section Order

variable {α β : Type*} [LinearOrder α] [LinearOrder β]

theorem Diverges.append {xs ys : List β} (h : Diverges xs ys) (more more' : List β) :
    xs ++ more < ys ++ more' := by
  induction h with
  | here h xs ys => exact .rel h
  | later x _ ih => exact .cons ih

/-- With smaller code words for smaller characters, lists compare as they are written. -/
theorem flatMap_lt_flatMap {code : α → List β} (hcode : ∀ a b, a < b → Diverges (code a) (code b))
    (hne : ∀ a, code a ≠ []) {as bs : List α} (h : as < bs) :
    as.flatMap code < bs.flatMap code := by
  induction h with
  | nil =>
    rename_i b bs
    rw [List.flatMap_nil, List.flatMap_cons]
    obtain ⟨y, ys, hy⟩ := List.exists_cons_of_ne_nil (hne b)
    rw [hy]
    exact .nil
  | cons _ ih =>
    rw [List.flatMap_cons, List.flatMap_cons]
    exact List.append_left_lt ih
  | rel h =>
    rw [List.flatMap_cons, List.flatMap_cons]
    exact (hcode _ _ h).append _ _

theorem flatMap_strictMono {code : α → List β} (hcode : ∀ a b, a < b → Diverges (code a) (code b))
    (hne : ∀ a, code a ≠ []) : StrictMono fun as : List α => as.flatMap code :=
  fun _ _ => flatMap_lt_flatMap hcode hne

end Order

section Utf8

instance linearOrderUInt8 : LinearOrder UInt8 where
  le_refl := UInt8.le_refl
  le_trans _ _ _ := UInt8.le_trans
  lt_iff_le_not_ge a b := by
    rw [UInt8.lt_iff_toNat_lt, UInt8.le_iff_toNat_le, UInt8.le_iff_toNat_le]
    omega
  le_antisymm _ _ := UInt8.le_antisymm
  le_total := UInt8.le_total
  toDecidableLE := inferInstance
  toDecidableLT := inferInstance
  toDecidableEq := inferInstance

variable {a b : Nat}

theorem ofNat_lt_ofNat (h : a < b) (hb : b < 256) : UInt8.ofNat a < UInt8.ofNat b := by
  rw [UInt8.lt_iff_toNat_lt, UInt8.toNat_ofNat', UInt8.toNat_ofNat']
  omega

theorem Diverges.of_le {xs ys : List UInt8} (hle : a ≤ b) (hb : b < 256)
    (h : a = b → Diverges xs ys) : Diverges (UInt8.ofNat a :: xs) (UInt8.ofNat b :: ys) := by
  rcases hle.lt_or_eq with hlt | rfl
  · exact .here (ofNat_lt_ofNat hlt hb) _ _
  · exact .later _ (h rfl)

theorem Diverges.of_lt (h : a < b) (hb : b < 256) (xs ys : List UInt8) :
    Diverges (UInt8.ofNat a :: xs) (UInt8.ofNat b :: ys) :=
  .here (ofNat_lt_ofNat h hb) _ _

theorem isValidChar_toNat (c : Char) :
    c.toNat < 0xd800 ∨ 0xdfff < c.toNat ∧ c.toNat < 0x110000 := c.valid

theorem toNat_lt (c : Char) : c.toNat < 0x110000 := by
  have := isValidChar_toNat c
  omega

def utf8Bytes (text : List Char) : List UInt8 := text.flatMap String.utf8EncodeChar

theorem diverges_utf8EncodeChar (c d : Char) (h : c < d) :
    Diverges (String.utf8EncodeChar c) (String.utf8EncodeChar d) := by
  have hlt : c.val.toNat < d.val.toNat := h
  have hd : d.val.toNat < 0x110000 := toNat_lt d
  generalize hv : c.val.toNat = v at hlt
  generalize hw : d.val.toNat = w at hlt hd
  simp only [String.utf8EncodeChar, hv, hw]
  split
  · -- one byte against one or more
    split
    · exact .of_lt hlt (by omega) _ _
    split
    · exact .of_lt (by omega) (by omega) _ _
    split
    · exact .of_lt (by omega) (by omega) _ _
    · exact .of_lt (by omega) (by omega) _ _
  rw [if_neg (show ¬w ≤ 127 by omega)]
  split
  · split
    · refine .of_le (by omega) (by omega) fun heq => ?_
      exact .of_lt (by omega) (by omega) _ _
    split
    · exact .of_lt (by omega) (by omega) _ _
    · exact .of_lt (by omega) (by omega) _ _
  rw [if_neg (show ¬w ≤ 2047 by omega)]
  split
  · split
    · refine .of_le (by omega) (by omega) fun heq => ?_
      refine .of_le (by omega) (by omega) fun heq' => ?_
      exact .of_lt (by omega) (by omega) _ _
    · exact .of_lt (by omega) (by omega) _ _
  rw [if_neg (show ¬w ≤ 65535 by omega)]
  refine .of_le (by omega) (by omega) fun heq => ?_
  refine .of_le (by omega) (by omega) fun heq' => ?_
  refine .of_le (by omega) (by omega) fun heq'' => ?_
  exact .of_lt (by omega) (by omega) _ _

/-- Texts compare by their code points as by their UTF-8 bytes. -/
theorem utf8Bytes_strictMono : StrictMono utf8Bytes :=
  flatMap_strictMono diverges_utf8EncodeChar fun _ => String.utf8EncodeChar_ne_nil

theorem utf8Bytes_toList (s : String) : utf8Bytes s.toList = s.toByteArray.data.toList := by
  rw [← String.utf8Encode_toList, List.utf8Encode, List.toList_data_toByteArray]
  rfl

theorem length_utf8Bytes (s : String) : (utf8Bytes s.toList).length = s.utf8ByteSize := by
  rw [utf8Bytes_toList]
  rfl

end Utf8

section Utf16

def isHighSurrogate (unit : UInt16) : Bool := 0xd800 ≤ unit.toNat && unit.toNat ≤ 0xdbff

def isLowSurrogate (unit : UInt16) : Bool := 0xdc00 ≤ unit.toNat && unit.toNat ≤ 0xdfff

def isSurrogate (unit : UInt16) : Bool := 0xd800 ≤ unit.toNat && unit.toNat ≤ 0xdfff

def utf16Char (c : Char) : List UInt16 :=
  if c.toNat ≤ 0xffff then [.ofNat c.toNat]
  else
    [.ofNat (0xd800 + (c.toNat - 0x10000) / 0x400), .ofNat (0xdc00 + (c.toNat - 0x10000) % 0x400)]

def utf16 (text : List Char) : List UInt16 := text.flatMap utf16Char

def pairCodePoint (high low : UInt16) : Nat :=
  (high.toNat - 0xd800) * 0x400 + (low.toNat - 0xdc00) + 0x10000

def unitChar (unit : UInt16) : Char :=
  if isSurrogate unit then '\uFFFD' else Char.ofNat unit.toNat

/-- The characters that code units read as; a surrogate without its other half is U+FFFD. -/
def scalars : List UInt16 → List Char
  | [] => []
  | [unit] => [unitChar unit]
  | unit :: next :: units =>
    if isHighSurrogate unit && isLowSurrogate next then
      Char.ofNat (pairCodePoint unit next) :: scalars units
    else unitChar unit :: scalars (next :: units)

theorem utf16Char_cases (c : Char) :
    (∃ unit, utf16Char c = [unit] ∧ isSurrogate unit = false ∧ isHighSurrogate unit = false ∧
      unit.toNat = c.toNat) ∨
    ∃ high low, utf16Char c = [high, low] ∧ isHighSurrogate high = true ∧
      isLowSurrogate low = true ∧ pairCodePoint high low = c.toNat := by
  have hvalid := isValidChar_toNat c
  unfold utf16Char
  split
  · refine .inl ⟨_, rfl, ?_⟩
    have hunit : (UInt16.ofNat c.toNat).toNat = c.toNat := by
      rw [UInt16.toNat_ofNat']
      omega
    simp only [isSurrogate, isHighSurrogate, hunit, Bool.and_eq_false_iff, decide_eq_false_iff_not,
      and_true]
    omega
  · refine .inr ⟨_, _, rfl, ?_⟩
    have hhigh : (UInt16.ofNat (0xd800 + (c.toNat - 0x10000) / 0x400)).toNat =
        0xd800 + (c.toNat - 0x10000) / 0x400 := by
      rw [UInt16.toNat_ofNat']
      omega
    have hlow : (UInt16.ofNat (0xdc00 + (c.toNat - 0x10000) % 0x400)).toNat =
        0xdc00 + (c.toNat - 0x10000) % 0x400 := by
      rw [UInt16.toNat_ofNat']
      omega
    simp only [isHighSurrogate, isLowSurrogate, pairCodePoint, hhigh, hlow, Bool.and_eq_true,
      decide_eq_true_eq]
    omega

theorem utf16_cons (c : Char) (text : List Char) : utf16 (c :: text) = utf16Char c ++ utf16 text :=
  rfl

theorem utf16Char_ne_nil (c : Char) : utf16Char c ≠ [] := by
  unfold utf16Char
  split <;> simp

theorem scalars_append (c : Char) (units : List UInt16) :
    scalars (utf16Char c ++ units) = c :: scalars units := by
  rcases utf16Char_cases c with ⟨unit, heq, hsurrogate, hhigh, hunit⟩ |
    ⟨high, low, heq, hhigh, hlow, hpair⟩
  · have hchar : unitChar unit = c := by
      rw [unitChar, hsurrogate, if_neg Bool.false_ne_true, hunit, Char.ofNat_toNat]
    rw [heq]
    cases units with
    | nil => simp [scalars, hchar]
    | cons next units =>
      rw [List.singleton_append, scalars, hhigh, Bool.false_and, if_neg Bool.false_ne_true, hchar]
  · rw [heq, List.cons_append, List.singleton_append, scalars, hhigh, hlow, Bool.true_and,
      if_pos rfl, hpair, Char.ofNat_toNat]

/-- Text reads back from its code units. -/
theorem scalars_utf16 (text : List Char) : scalars (utf16 text) = text := by
  induction text with
  | nil => rfl
  | cons c text ih => rw [utf16_cons, scalars_append, ih]

end Utf16

section Ascii

/-- An encoding that writes an ASCII character as its own unit, and no other character with
such a unit. -/
structure AsciiEncoding (α : Type) where
  code : α → Nat
  unit : Nat → α
  encode : Char → List α
  code_unit : ∀ n < 128, code (unit n) = n
  code_injective : Function.Injective code
  encode_ascii : ∀ c : Char, c.toNat < 128 → encode c = [unit c.toNat]
  code_encode : ∀ c : Char, 128 ≤ c.toNat → ∀ a ∈ encode c, 128 ≤ code a
  encode_ne : ∀ c : Char, encode c ≠ []

theorem le_of_mem_utf8EncodeChar {c : Char} (hc : 128 ≤ c.toNat) {a : UInt8}
    (ha : a ∈ String.utf8EncodeChar c) : 128 ≤ a.toNat := by
  have hbound : c.val.toNat < 0x110000 := toNat_lt c
  replace hc : 128 ≤ c.val.toNat := hc
  unfold String.utf8EncodeChar at ha
  generalize c.val.toNat = v at hc hbound ha
  rw [if_neg (show ¬v ≤ 127 by omega)] at ha
  split at ha
  · simp only [List.mem_cons, List.not_mem_nil, or_false] at ha
    rcases ha with rfl | rfl <;> (rw [UInt8.toNat_ofNat']; omega)
  split at ha
  · simp only [List.mem_cons, List.not_mem_nil, or_false] at ha
    rcases ha with rfl | rfl | rfl <;> (rw [UInt8.toNat_ofNat']; omega)
  · simp only [List.mem_cons, List.not_mem_nil, or_false] at ha
    rcases ha with rfl | rfl | rfl | rfl <;> (rw [UInt8.toNat_ofNat']; omega)

def utf8Encoding : AsciiEncoding UInt8 where
  code := UInt8.toNat
  unit := UInt8.ofNat
  encode := String.utf8EncodeChar
  code_unit n hn := by
    rw [UInt8.toNat_ofNat']
    omega
  code_injective _ _ h := UInt8.toNat_inj.mp h
  encode_ascii c hc := by
    have hle : c.val.toNat ≤ 127 := Nat.le_of_lt_succ hc
    simp only [String.utf8EncodeChar, hle, if_true]
    rfl
  code_encode _ hc _ ha := le_of_mem_utf8EncodeChar hc ha
  encode_ne _ := String.utf8EncodeChar_ne_nil

def utf16Encoding : AsciiEncoding UInt16 where
  code := UInt16.toNat
  unit := UInt16.ofNat
  encode := utf16Char
  code_unit n hn := by
    rw [UInt16.toNat_ofNat']
    omega
  code_injective _ _ h := UInt16.toNat_inj.mp h
  encode_ascii c hc := by
    rw [utf16Char, if_pos (by omega)]
  code_encode c hc a ha := by
    rcases utf16Char_cases c with ⟨unit, heq, -, -, hunit⟩ | ⟨high, low, heq, hhigh, hlow, -⟩
    · rw [heq, List.mem_singleton] at ha
      rw [ha, hunit]
      exact hc
    · simp only [isHighSurrogate, isLowSurrogate, Bool.and_eq_true, decide_eq_true_eq] at hhigh hlow
      rw [heq, List.mem_cons, List.mem_singleton] at ha
      rcases ha with rfl | rfl <;> omega
  encode_ne := utf16Char_ne_nil

end Ascii

section Framing

def uint32 (n : Nat) : List UInt8 :=
  [.ofNat n, .ofNat (n / 0x100), .ofNat (n / 0x10000), .ofNat (n / 0x1000000)]

def framed (bytes : List UInt8) : List UInt8 := uint32 bytes.length ++ bytes

theorem uint32_injective {m n : Nat} (hm : m < 2 ^ 32) (hn : n < 2 ^ 32)
    (h : uint32 m = uint32 n) : m = n := by
  simp only [uint32, List.cons.injEq, and_true, ← UInt8.toNat_inj, UInt8.toNat_ofNat'] at h
  omega

variable {rest' rest : List UInt8}

theorem uint32_append_inj {m n : Nat} (hm : m < 2 ^ 32) (hn : n < 2 ^ 32)
    (h : uint32 m ++ rest = uint32 n ++ rest') : m = n ∧ rest = rest' := by
  obtain ⟨hnumber, hrest⟩ := List.append_inj h rfl
  exact ⟨uint32_injective hm hn hnumber, hrest⟩

theorem framed_append_inj {bytes bytes' : List UInt8} (hm : bytes.length < 2 ^ 32)
    (hn : bytes'.length < 2 ^ 32) (h : framed bytes ++ rest = framed bytes' ++ rest') :
    bytes = bytes' ∧ rest = rest' := by
  rw [framed, framed, List.append_assoc, List.append_assoc] at h
  obtain ⟨hlength, h⟩ := uint32_append_inj hm hn h
  exact List.append_inj h hlength

theorem framed_flatMap_inj {parts parts' : List (List UInt8)}
    (hlength : parts.length = parts'.length) (hparts : ∀ bytes ∈ parts, bytes.length < 2 ^ 32)
    (hparts' : ∀ bytes ∈ parts', bytes.length < 2 ^ 32)
    (h : parts.flatMap framed ++ rest = parts'.flatMap framed ++ rest') :
    parts = parts' ∧ rest = rest' := by
  induction parts generalizing parts' with
  | nil =>
    obtain rfl := List.length_eq_zero_iff.mp hlength.symm
    exact ⟨rfl, h⟩
  | cons bytes parts ih =>
    cases parts' with
    | nil => cases hlength
    | cons bytes' parts' =>
      rw [List.forall_mem_cons] at hparts hparts'
      rw [List.flatMap_cons, List.flatMap_cons, List.append_assoc, List.append_assoc] at h
      obtain ⟨rfl, hnext⟩ := framed_append_inj hparts.1 hparts'.1 h
      obtain ⟨rfl, hrest⟩ := ih (Nat.succ.inj hlength) hparts.2 hparts'.2 hnext
      exact ⟨rfl, hrest⟩

end Framing

section Compacting

variable {α β : Type*} [DecidableEq α]

def compact : List α → List α
  | a :: b :: l => if a = b then compact (b :: l) else a :: compact (b :: l)
  | l => l

theorem mem_compact {a : α} {l : List α} : a ∈ compact l ↔ a ∈ l := by
  fun_induction compact l with
  | case1 b l ih => simp [ih]
  | case2 b c l hne ih => simp [ih]
  | case3 l h => rfl

theorem compact_map [DecidableEq β] {f : α → β} (hf : Function.Injective f) (l : List α) :
    compact (l.map f) = (compact l).map f := by
  fun_induction compact l with
  | case1 b l ih => simpa [compact] using ih
  | case2 b c l hne ih =>
    simp only [List.map_cons, compact, hf.eq_iff, hne, if_false] at ih ⊢
    rw [ih]
  | case3 l h =>
    cases l with
    | nil => rfl
    | cons a l =>
      cases l with
      | nil => rfl
      | cons b l => exact absurd rfl (h a b l)

/-- Without its repetitions an ascending list is strictly ascending. -/
theorem pairwise_compact [LinearOrder β] {key : α → β} (hkey : Function.Injective key)
    {l : List α} (h : l.Pairwise fun a b => key a ≤ key b) :
    (compact l).Pairwise fun a b => key a < key b := by
  fun_induction compact l with
  | case1 b l ih => exact ih (List.pairwise_cons.mp h).2
  | case2 b c l hne ih =>
    obtain ⟨hfirst, hrest⟩ := List.pairwise_cons.mp h
    refine List.pairwise_cons.mpr ⟨fun a ha => ?_, ih hrest⟩
    have hbc : key b < key c := (hfirst c (by simp)).lt_of_ne (hkey.ne hne)
    rcases List.mem_cons.mp (mem_compact.mp ha) with rfl | ha
    · exact hbc
    · exact hbc.trans_le ((List.pairwise_cons.mp hrest).1 a ha)
  | case3 l hl =>
    cases l with
    | nil => exact .nil
    | cons a l =>
      cases l with
      | nil => exact List.pairwise_singleton _ _
      | cons b l => exact absurd rfl (hl a b l)

end Compacting

end Encodings
