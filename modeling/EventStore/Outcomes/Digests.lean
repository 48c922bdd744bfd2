import EventStore.Core.Digests

/-!
The digest input tells commands apart: fields and targets stand behind their lengths and numbers.
The three languages write the same bytes, since code points, UTF-8 bytes and the comparison of
UTF-16 code units order strings alike.
-/
namespace EventStore

open Encodings

section Targets

theorem textBytes_injective : Function.Injective textBytes :=
  utf8Bytes_strictMono.injective.comp fun _ _ => String.toList_inj.mp

theorem textBytes_le_iff {a b : String} : textBytes a ≤ textBytes b ↔ a.toList ≤ b.toList :=
  utf8Bytes_strictMono.le_iff_le

theorem mem_sortedTargets {targets : List EntityId} {target : EntityId} :
    target ∈ sortedTargets targets ↔ target ∈ targets := by
  rw [sortedTargets, mem_compact, List.mem_insertionSort]

theorem pairwise_sortedTargets (targets : List EntityId) :
    (sortedTargets targets).Pairwise fun a b => textBytes a < textBytes b :=
  pairwise_compact textBytes_injective (Ranking.pairwise_insertionSort textBytes targets)

theorem eq_of_ascending {l l' : List EntityId}
    (h : l.Pairwise fun a b => textBytes a < textBytes b)
    (h' : l'.Pairwise fun a b => textBytes a < textBytes b) (hmem : ∀ t, t ∈ l ↔ t ∈ l') :
    l = l' := by
  have : Std.Antisymm fun a b : EntityId => textBytes a < textBytes b :=
    ⟨fun a b hab hba => absurd hab hba.not_gt⟩
  have : Std.Irrefl fun a b : EntityId => textBytes a < textBytes b := ⟨fun a => lt_irrefl _⟩
  exact h.eq_of_mem_iff h' hmem

theorem sortedTargets_eq_iff {targets targets' : List EntityId} :
    sortedTargets targets = sortedTargets targets' ↔ ∀ t, t ∈ targets ↔ t ∈ targets' := by
  constructor
  · intro h t
    rw [← mem_sortedTargets, h, mem_sortedTargets]
  · intro h
    refine eq_of_ascending (pairwise_sortedTargets _) (pairwise_sortedTargets _) fun t => ?_
    rw [mem_sortedTargets, mem_sortedTargets, h t]

theorem length_sortedTargets_le (targets : List EntityId) :
    (sortedTargets targets).length ≤ targets.length := by
  have hnodup : (sortedTargets targets).Nodup := by
    rw [List.nodup_iff_pairwise_ne]
    refine (pairwise_sortedTargets targets).imp ?_
    rintro a b hab rfl
    exact lt_irrefl _ hab
  exact (hnodup.subperm fun t ht => mem_sortedTargets.mp ht).length_le

end Targets

/-- Every field is shorter than a length can be, and so is the list of targets. -/
structure DigestInput.Fits (input : DigestInput) : Prop where
  commandType : input.commandType.utf8ByteSize < 2 ^ 32
  targets : ∀ target ∈ input.targets, target.utf8ByteSize < 2 ^ 32
  count : input.targets.length < 2 ^ 32
  payload : input.payload.size < 2 ^ 32
  principal : input.principal.utf8ByteSize < 2 ^ 32

/-- The bytes determine the fields. -/
theorem digestBytes_injective {commandType commandType' principal principal' : List UInt8}
    {targets targets' : List (List UInt8)} {payload payload' : Bytes}
    (hc : commandType.length < 2 ^ 32) (hc' : commandType'.length < 2 ^ 32)
    (ht : ∀ target ∈ targets, target.length < 2 ^ 32)
    (ht' : ∀ target ∈ targets', target.length < 2 ^ 32) (hn : targets.length < 2 ^ 32)
    (hn' : targets'.length < 2 ^ 32) (hp : payload.size < 2 ^ 32) (hp' : payload'.size < 2 ^ 32)
    (hr : principal.length < 2 ^ 32) (hr' : principal'.length < 2 ^ 32)
    (h : digestBytes commandType targets payload principal =
      digestBytes commandType' targets' payload' principal') :
    commandType = commandType' ∧ targets = targets' ∧ payload = payload' ∧
      principal = principal' := by
  simp only [digestBytes, List.append_assoc, List.append_cancel_left_eq] at h
  obtain ⟨rfl, hafter⟩ := framed_append_inj hc hc' h
  obtain ⟨hcount, htargets⟩ := uint32_append_inj hn hn' hafter
  obtain ⟨rfl, hlast⟩ := framed_flatMap_inj hcount ht ht' htargets
  obtain ⟨hpayload, hprincipal⟩ := framed_append_inj hp hp' hlast
  obtain ⟨rfl, -⟩ := framed_append_inj hr hr' (congrArg (· ++ []) hprincipal)
  exact ⟨rfl, rfl, ByteArray.ext (Array.toList_inj.mp hpayload), rfl⟩

theorem canonicalDigestBytes_eq_iff {a b : DigestInput} (ha : a.Fits) (hb : b.Fits) :
    canonicalDigestBytes a = canonicalDigestBytes b ↔
      a.commandType = b.commandType ∧ (∀ t, t ∈ a.targets ↔ t ∈ b.targets) ∧
      a.payload = b.payload ∧ a.principal = b.principal := by
  have htext : ∀ text : String, (textBytes text).length = text.utf8ByteSize := length_utf8Bytes
  have hsizes : ∀ {input : DigestInput}, input.Fits →
      ∀ target ∈ (sortedTargets input.targets).map textBytes, target.length < 2 ^ 32 := by
    intro input hinput target htarget
    obtain ⟨t, ht, rfl⟩ := List.mem_map.mp htarget
    rw [htext]
    exact hinput.targets t (mem_sortedTargets.mp ht)
  have hcounts : ∀ {input : DigestInput}, input.Fits →
      ((sortedTargets input.targets).map textBytes).length < 2 ^ 32 := by
    intro input hinput
    rw [List.length_map]
    exact (length_sortedTargets_le _).trans_lt hinput.count
  constructor
  · intro h
    obtain ⟨hcommandType, htargets, hpayload, hprincipal⟩ :=
      digestBytes_injective (by rw [htext]; exact ha.commandType)
        (by rw [htext]; exact hb.commandType) (hsizes ha) (hsizes hb) (hcounts ha) (hcounts hb)
        ha.payload hb.payload (by rw [htext]; exact ha.principal)
        (by rw [htext]; exact hb.principal) h
    exact ⟨textBytes_injective hcommandType,
      sortedTargets_eq_iff.mp (List.map_injective_iff.mpr textBytes_injective htargets), hpayload,
      textBytes_injective hprincipal⟩
  · rintro ⟨hcommandType, htargets, hpayload, hprincipal⟩
    rw [canonicalDigestBytes, hcommandType, sortedTargets_eq_iff.mpr htargets, hpayload, hprincipal]
    rfl

/-- The Go encoder sorts the bytes themselves. -/
theorem Go.canonicalDigestBytes_eq (input : EventStore.DigestInput) :
    Go.canonicalDigestBytes (.of input) = EventStore.canonicalDigestBytes input := by
  have hsort : (input.targets.map textBytes).insertionSort (· ≤ ·) =
      (input.targets.insertionSort fun a b => textBytes a ≤ textBytes b).map textBytes :=
    (List.map_insertionSort _ _ textBytes input.targets fun _ _ _ _ => Iff.rfl).symm
  rw [Go.canonicalDigestBytes, EventStore.canonicalDigestBytes, sortedTargets,
    ← compact_map textBytes_injective, ← hsort]
  rfl

namespace TypeScript

theorem codePointAt_append (c : Char) (units : List UInt16) :
    codePointAt (utf16Char c ++ units) = c.toNat ∧
      (utf16Char c ++ units).drop (codePointUnits c.toNat) = units := by
  rcases utf16Char_cases c with ⟨unit, heq, hsurrogate, hhigh, hunit⟩ |
    ⟨high, low, heq, hhigh, hlow, hpair⟩
  · have hsmall : codePointUnits c.toNat = 1 := by
      have := unit.toNat_lt
      rw [codePointUnits, ← hunit, if_neg (by omega)]
    rw [heq, hsmall]
    cases units with
    | nil => simp [codePointAt, hsurrogate, hunit]
    | cons next units => simp [codePointAt, hsurrogate, hhigh, hunit]
  · have hlarge : codePointUnits c.toNat = 2 := by
      rw [codePointUnits, ← hpair, pairCodePoint, if_pos (by omega)]
    rw [heq, hlarge]
    simp [codePointAt, hhigh, hlow, hpair]

theorem compareUtf8_append (c d : Char) (a b : List UInt16) :
    compareUtf8 (utf16Char c ++ a) (utf16Char d ++ b) =
      if c ≠ d then if c < d then -1 else 1 else compareUtf8 a b := by
  obtain ⟨hx, hdrop⟩ := codePointAt_append c a
  obtain ⟨hy, hdrop'⟩ := codePointAt_append d b
  obtain ⟨u, us, hu⟩ := List.exists_cons_of_ne_nil (List.append_ne_nil_of_left_ne_nil
    (utf16Char_ne_nil c) a)
  obtain ⟨v, vs, hv⟩ := List.exists_cons_of_ne_nil (List.append_ne_nil_of_left_ne_nil
    (utf16Char_ne_nil d) b)
  rw [hu, hv, compareUtf8, ← hu, ← hv, hx, hy, hdrop, hdrop']
  have hne : c.toNat ≠ d.toNat ↔ c ≠ d := Char.toNat_inj.not
  simp only [hne]
  rfl

/-- The comparison of code units is that of the characters they stand for. -/
theorem compareUtf8_le_iff (a b : List Char) :
    compareUtf8 (utf16 a) (utf16 b) ≤ 0 ↔ a ≤ b := by
  rw [show a ≤ b ↔ ¬b < a from not_lt.symm]
  induction a generalizing b with
  | nil =>
    have hle : compareUtf8 (utf16 []) (utf16 b) ≤ 0 := by
      simp only [utf16, List.flatMap_nil, compareUtf8, List.length_nil]
      omega
    simp [hle]
  | cons c a ih =>
    cases b with
    | nil =>
      obtain ⟨u, us, hu⟩ := List.exists_cons_of_ne_nil (utf16Char_ne_nil c)
      have hpos : 0 < compareUtf8 (utf16 (c :: a)) (utf16 []) := by
        simp only [utf16, List.flatMap_nil, List.flatMap_cons, hu, List.cons_append, compareUtf8,
          List.length_cons, List.length_nil]
        omega
      simp [hpos.not_ge]
    | cons d b =>
      rw [utf16_cons, utf16_cons, compareUtf8_append, List.cons_lt_cons_iff]
      rcases lt_trichotomy c d with hlt | rfl | hgt
      · simp [hlt.ne, hlt.ne', hlt, hlt.not_gt]
      · simpa using ih b
      · simp [hgt.ne', hgt, hgt.not_gt]

def readUnits (text : List UInt16) : String := String.ofList (scalars text)

theorem readUnits_utf16 (text : String) : readUnits (utf16 text.toList) = text := by
  rw [readUnits, scalars_utf16, String.ofList_toList]

theorem sortedTargets_eq (targets : List EntityId) :
    sortedTargets (targets.map (utf16 ·.toList)) =
      (EventStore.sortedTargets targets).map (utf16 ·.toList) := by
  set unique := (targets.map (utf16 ·.toList)).reverse.dedup.reverse with hunique
  have hmem : ∀ text, text ∈ unique ↔ ∃ target ∈ targets, utf16 target.toList = text := by
    simp [hunique]
  have hread : (unique.map readUnits).map (utf16 ·.toList) = unique := by
    rw [List.map_map]
    conv_rhs => rw [← List.map_id unique]
    refine List.map_congr_left fun text htext => ?_
    obtain ⟨target, -, rfl⟩ := (hmem text).mp htext
    rw [Function.comp_apply, readUnits_utf16, id_eq]
  have hsort : sortedTargets (targets.map (utf16 ·.toList)) =
      ((unique.map readUnits).insertionSort fun a b => textBytes a ≤ textBytes b).map
        (utf16 ·.toList) := by
    rw [List.map_insertionSort _ (fun a b => compareUtf8 a b ≤ 0) _ _ fun a _ b _ => by
      rw [compareUtf8_le_iff, textBytes_le_iff], hread]
    rfl
  rw [hsort]
  congr 1
  have hnodup : (unique.map readUnits).Nodup := by
    refine List.Nodup.of_map (utf16 ·.toList) ?_
    rw [hread]
    exact List.nodup_reverse.mpr (List.nodup_dedup _)
  refine eq_of_ascending ?_ (pairwise_sortedTargets targets) fun t => ?_
  · refine ((Ranking.pairwise_insertionSort textBytes _).and
      ((List.perm_insertionSort _ _).nodup_iff.mpr
      hnodup)).imp ?_
    rintro a b ⟨hle, hne⟩
    exact hle.lt_of_ne (textBytes_injective.ne hne)
  · rw [List.mem_insertionSort, mem_sortedTargets, List.mem_map]
    constructor
    · rintro ⟨text, htext, rfl⟩
      obtain ⟨target, htarget, rfl⟩ := (hmem text).mp htext
      rwa [readUnits_utf16]
    · intro ht
      exact ⟨utf16 t.toList, (hmem _).mpr ⟨t, ht, rfl⟩, readUnits_utf16 t⟩

theorem canonicalDigestBytes_eq (input : EventStore.DigestInput) :
    canonicalDigestBytes (.of input) = EventStore.canonicalDigestBytes input := by
  have hencode : ∀ text : String, utf8Encode (utf16 text.toList) = textBytes text := by
    intro text
    rw [utf8Encode, scalars_utf16, textBytes]
  simp only [canonicalDigestBytes, DigestInput.of, sortedTargets_eq, List.map_map, hencode,
    EventStore.canonicalDigestBytes, Function.comp_def]

end TypeScript

/-- The digest bytes determine type, set of targets, payload and principal, and nothing else; Go and
TypeScript write the same. -/
theorem canonicalDigestBytes_canonical :
    (∀ (command command' : CommandIdentity) (metadata metadata' : Metadata),
      (command.digestInput metadata).Fits → (command'.digestInput metadata').Fits →
      (canonicalDigestBytes (command.digestInput metadata) =
          canonicalDigestBytes (command'.digestInput metadata') ↔
        command.commandType = command'.commandType ∧
        (∀ target, target ∈ command.targets ↔ target ∈ command'.targets) ∧
        command.payload = command'.payload ∧
        metadata.principalId.getD "" = metadata'.principalId.getD "")) ∧
    (∀ (input : DigestInput) (targets : List EntityId),
      (∀ target, target ∈ targets ↔ target ∈ input.targets) →
      canonicalDigestBytes { input with targets } = canonicalDigestBytes input) ∧
    ∀ input : DigestInput,
      Go.canonicalDigestBytes (.of input) = canonicalDigestBytes input ∧
      TypeScript.canonicalDigestBytes (.of input) = canonicalDigestBytes input := by
  refine ⟨fun command command' metadata metadata' h h' => canonicalDigestBytes_eq_iff h h', ?_,
    fun input => ⟨Go.canonicalDigestBytes_eq input, TypeScript.canonicalDigestBytes_eq input⟩⟩
  intro input targets htargets
  simp only [canonicalDigestBytes, sortedTargets_eq_iff.mpr htargets]

/-- An unset principal is the empty one, and a target named twice is named once. -/
theorem canonicalDigestBytes_of_rename :
    let command : CommandIdentity := ⟨"rename", ["b", "a", "b"], "\x7b\x7d".toUTF8⟩
    let command' : CommandIdentity := ⟨"rename", ["a", "b"], "\x7b\x7d".toUTF8⟩
    (command.digestInput {}).Fits ∧ (command'.digestInput { principalId := some "" }).Fits ∧
    canonicalDigestBytes (command.digestInput {}) =
      canonicalDigestBytes (command'.digestInput { principalId := some "" }) := by
  intro command command'
  have h : (command.digestInput {}).Fits := by
    constructor <;> decide +kernel
  have h' : (command'.digestInput { principalId := some "" }).Fits := by
    constructor <;> decide +kernel
  refine ⟨h, h', (canonicalDigestBytes_canonical.1 _ _ _ _ h h').mpr ⟨rfl, ?_, rfl, rfl⟩⟩
  intro target
  simp only [command, command', List.mem_cons, List.not_mem_nil, or_false]
  tauto

end EventStore
