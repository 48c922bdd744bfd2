import EventStore.Core.CommitIds
import EventStore.Lib.Encodings
import EventStore.Lib.Positional

/-!
The order of generated commit IDs: each generation takes a larger value, whatever the clock reads,
until the largest has been written.
-/
namespace EventStore

open Encodings

namespace CommitId

section Encoding

def Precedes (id id' : String) : Prop := utf8Bytes id.toList < utf8Bytes id'.toList

instance decidablePrecedes (id id' : String) : Decidable (Precedes id id') :=
  inferInstanceAs (Decidable (utf8Bytes id.toList < utf8Bytes id'.toList))

theorem alphabet_lt : ∀ i j, i < j → j < 32 → alphabet.getD i '0' < alphabet.getD j '0' := by
  intro i j hij hj
  have hall : ∀ j : Fin 32, ∀ i : Fin 32, i < j →
      alphabet.getD i.val '0' < alphabet.getD j.val '0' := by decide +kernel
  exact hall ⟨j, hj⟩ ⟨i, hij.trans hj⟩ hij

theorem toList_encode (value : Nat) :
    (encode value).toList = Positional.written 32 (alphabet.getD · '0') 26 value := by
  rw [encode, String.toList_ofList, Positional.written_eq_map]
  refine List.map_congr_left fun index _ => ?_
  rw [Nat.shiftRight_eq_div_pow, pow_mul, show 0x1f = 2 ^ 5 - 1 from rfl,
    Nat.and_two_pow_sub_one_eq_mod]
  norm_num

theorem length_encode (value : Nat) : (encode value).length = 26 := by
  rw [← String.length_toList, toList_encode, Positional.length_written]

theorem encode_precedes {a b : Nat} (hb : b < 2 ^ 128) (h : a < b) :
    Precedes (encode a) (encode b) := by
  refine utf8Bytes_strictMono ?_
  rw [toList_encode, toList_encode]
  refine Positional.written_lt_written (by decide) alphabet_lt 26 (hb.trans ?_) h
  norm_num

theorem Precedes.irrefl (id : String) : ¬Precedes id id := lt_irrefl _

theorem Precedes.asymm {id id' : String} (h : Precedes id id') : ¬Precedes id' id := lt_asymm h

theorem encode_precedes_iff {a b : Nat} (ha : a < 2 ^ 128) (hb : b < 2 ^ 128) :
    Precedes (encode a) (encode b) ↔ a < b := by
  refine ⟨fun h => ?_, encode_precedes hb⟩
  rcases Nat.lt_trichotomy a b with hlt | rfl | hgt
  · exact hlt
  · exact absurd h (Precedes.irrefl _)
  · exact absurd h (encode_precedes ha hgt).asymm

theorem encode_inj {a b : Nat} (ha : a < 2 ^ 128) (hb : b < 2 ^ 128)
    (h : encode a = encode b) : a = b := by
  have hab := encode_precedes_iff ha hb
  have hba := encode_precedes_iff hb ha
  rw [h] at hab hba
  have hself := Precedes.irrefl (encode b)
  exact Nat.le_antisymm (Nat.not_lt.mp fun hlt => hself (hba.mpr hlt))
    (Nat.not_lt.mp fun hlt => hself (hab.mpr hlt))

end Encoding

section Runs

variable {state : State} {call : Call}

def greatest : Nat := 2 ^ 128 - 1

namespace State

def value (state : State) : Nat := state.lastMs * 2 ^ 80 + state.entropy

structure Valid (state : State) : Prop where
  lastMs : state.lastMs < 2 ^ 48
  entropy : state.entropy < 2 ^ 80

theorem Valid.value_lt (h : state.Valid) : state.value < 2 ^ 128 := by
  have hms := h.lastMs
  have hentropy := h.entropy
  unfold value
  omega

theorem shifted_eq_value {ms entropy : Nat} (h : entropy < 2 ^ 80) :
    (ms <<< 80) ||| entropy = (State.mk ms entropy).value := by
  rw [← Nat.shiftLeft_add_eq_or_of_lt h, Nat.shiftLeft_eq, value]

end State

theorem randomEntropy_lt (high low : UInt64) : randomEntropy high low < 2 ^ 80 := by
  rw [randomEntropy, entropyMask, Nat.and_two_pow_sub_one_eq_mod]
  exact Nat.mod_lt _ (by decide)

/-- One generation writes its new state, which is larger unless the old was the greatest. -/
theorem generateAt_spec (hvalid : state.Valid) (hnow : call.nowMs.toNat < 2 ^ 48) :
    (generateAt state call).1.Valid ∧
      (generateAt state call).2 = encode (generateAt state call).1.value ∧
      (state.value ≠ greatest → state.value < (generateAt state call).1.value) := by
  have hms := hvalid.lastMs
  have hentropy := hvalid.entropy
  have hdrawn := randomEntropy_lt call.high call.low
  have hmax : max call.nowMs.toNat state.lastMs &&& timestampMask =
      max call.nowMs.toNat state.lastMs := by
    rw [timestampMask, Nat.and_two_pow_sub_one_of_lt_two_pow (by omega)]
  simp only [generateAt, hmax]
  by_cases hsame : max call.nowMs.toNat state.lastMs = state.lastMs
  · by_cases hroom : state.entropy < entropyMask
    · have hnext : state.entropy + 1 < 2 ^ 80 := by
        unfold entropyMask at hroom
        omega
      rw [if_pos ⟨hsame, hroom⟩, hsame, State.shifted_eq_value hnext]
      refine ⟨⟨hms, hnext⟩, rfl, fun _ => ?_⟩
      simp only [State.value]
      omega
    · rw [if_neg fun h => hroom h.2, if_pos hsame, hsame, timestampMask,
        Nat.and_two_pow_sub_one_eq_mod, State.shifted_eq_value hdrawn]
      refine ⟨⟨Nat.mod_lt _ (by decide), hdrawn⟩, rfl, fun hnot => ?_⟩
      simp only [State.value, greatest, entropyMask] at *
      omega
  · rw [if_neg fun h => hsame h.1, if_neg hsame, State.shifted_eq_value hdrawn]
    have hlater : max call.nowMs.toNat state.lastMs < 2 ^ 48 := max_lt hnow hms
    refine ⟨⟨hlater, hdrawn⟩, rfl, fun _ => ?_⟩
    simp only [State.value]
    omega

/-- IDs of 26 characters, ascending up to the last state unless the greatest was among them. -/
structure Issued (state last : State) (ids : List String) : Prop where
  valid : last.Valid
  length : ∀ id ∈ ids, id.length = 26
  rises : state.value ≠ greatest → encode greatest ∉ ids →
    state.value ≤ last.value ∧ last.value ≠ greatest ∧ ∀ id ∈ ids, ∃ v ≤ last.value, id = encode v

theorem generateAll_issued {calls : List Call} (hvalid : state.Valid)
    (hreadings : ∀ call ∈ calls, call.nowMs.toNat < 2 ^ 48) :
    Issued state (generateAll state calls).1 (generateAll state calls).2 := by
  induction calls generalizing state with
  | nil => exact ⟨hvalid, List.forall_mem_nil _, fun h _ => ⟨le_rfl, h, List.forall_mem_nil _⟩⟩
  | cons call calls ih =>
    obtain ⟨hnow, hreadings⟩ := List.forall_mem_cons.mp hreadings
    obtain ⟨hnext, hid, hrise⟩ := generateAt_spec hvalid hnow
    have hrest := ih hnext hreadings
    simp only [generateAll]
    refine ⟨hrest.valid, List.forall_mem_cons.mpr ⟨?_, hrest.length⟩, fun hstart hnever => ?_⟩
    · rw [hid, length_encode]
    · rw [List.mem_cons, not_or] at hnever
      have hnot : (generateAt state call).1.value ≠ greatest := by
        intro heq
        exact hnever.1 (by rw [hid, heq])
      obtain ⟨hle, hlast, hids⟩ := hrest.rises hnot hnever.2
      exact ⟨(hrise hstart).le.trans hle, hlast,
        List.forall_mem_cons.mpr ⟨⟨_, hle, hid⟩, hids⟩⟩

/-- Until the greatest ID has been generated, an ID is larger than all before it. -/
theorem generated_ids_increase {calls : List Call} {call : Call}
    (hreadings : ∀ c ∈ calls ++ [call], c.nowMs.toNat < 2 ^ 48 - 1) :
    (generateAt (generateAll .initial calls).1 call).2.length = 26 ∧
      (encode greatest ∉ (generateAll .initial calls).2 →
        ∀ id ∈ (generateAll .initial calls).2,
          Precedes id (generateAt (generateAll .initial calls).1 call).2) ∧
      (∀ a < 2 ^ 128, ∀ b < 2 ^ 128, Precedes (encode a) (encode b) ↔ a < b) ∧
      (∀ a < 2 ^ 128, ∀ b < 2 ^ 128, encode a = encode b → a = b) := by
  have hreading : ∀ c ∈ calls ++ [call], c.nowMs.toNat < 2 ^ 48 := fun c hc =>
    (hreadings c hc).trans (by decide)
  have hstart : State.initial.Valid := ⟨by decide, by decide⟩
  have hissued := generateAll_issued hstart fun c hc => hreading c (List.mem_append_left _ hc)
  obtain ⟨hnext, hid, hrise⟩ := generateAt_spec hissued.valid
    (hreading call (List.mem_append_right _ (List.mem_singleton_self call)))
  refine ⟨by rw [hid, length_encode], fun hnever id hmem => ?_,
    fun a ha b hb => encode_precedes_iff ha hb, fun a ha b hb => encode_inj ha hb⟩
  obtain ⟨-, hlast, hids⟩ := hissued.rises (by decide) hnever
  obtain ⟨v, hv, rfl⟩ := hids id hmem
  rw [hid]
  exact encode_precedes hnext.value_lt (hv.trans_lt (hrise hlast))

/-- All ones drawn twice, at the two last timestamps: the timestamp after them is the first. -/
theorem exhausted_generator_wraps :
    (∀ c ∈ List.replicate 3 (Call.mk (2 ^ 48 - 2) (2 ^ 64 - 1) (2 ^ 64 - 1)),
        c.nowMs.toNat < 2 ^ 48 - 1) ∧
      (generateAll .initial (List.replicate 3 ⟨2 ^ 48 - 2, 2 ^ 64 - 1, 2 ^ 64 - 1⟩)).2 =
        ["7ZZZZZZZZYZZZZZZZZZZZZZZZZ", "7ZZZZZZZZZZZZZZZZZZZZZZZZZ", "0000000000ZZZZZZZZZZZZZZZZ"] ∧
      ¬Precedes "7ZZZZZZZZZZZZZZZZZZZZZZZZZ" "0000000000ZZZZZZZZZZZZZZZZ" := by
  decide +kernel

/-- A clock that goes back. -/
theorem generated_ids_increase_backwards :
    let calls : List Call := [⟨1800000000123, 5, 6⟩, ⟨1800000000123, 7, 8⟩]
    Precedes (generateAt .initial ⟨1800000000123, 5, 6⟩).2
      (generateAt (generateAll .initial calls).1 ⟨1000, 9, 10⟩).2 := by
  refine (generated_ids_increase ?_).2.1 ?_ _ (List.mem_cons_self)
  · decide +kernel
  · decide +kernel

end Runs

end CommitId

end EventStore
