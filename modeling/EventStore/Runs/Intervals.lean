import EventStore.Core.TypeScript
import EventStore.Runs.Continuing

/-!
When snapshots fall due: a commit carries one exactly when its events reach or cross a multiple
of the interval. The 64-bit count, whose cast of the interval changes its sign from `2^63` on,
and the two ports against the count on all integers.
-/
namespace EventStore

open Result

/-- Some multiple of the interval lies above `sequence` and within `events` of it. -/
def Crosses (sequence : Int) (events interval : Nat) : Prop :=
  0 < interval ∧ ∃ m : Int, sequence < m * interval ∧ m * interval ≤ sequence + events

variable {sequence : Int} {interval events : Nat}

theorem crosses_iff :
    Crosses sequence events interval ↔
      0 < interval ∧ (interval : Int) ≤ events + sequence % interval := by
  unfold Crosses
  refine and_congr_right fun hpos => ?_
  have hsplit := Int.mul_ediv_add_emod sequence interval
  have hnonneg := Int.emod_nonneg sequence (show (interval : Int) ≠ 0 by omega)
  have hlt := Int.emod_lt_of_pos sequence (show (0 : Int) < interval by omega)
  have hnext : (sequence / interval + 1) * interval =
      interval * (sequence / interval) + interval := by ring
  constructor
  · rintro ⟨m, hbelow, hwithin⟩
    -- no multiple lies between the sequence and the one after its quotient
    have hquotient : sequence / interval + 1 ≤ m :=
      Int.ediv_lt_of_lt_mul (by omega) hbelow
    have := Int.mul_le_mul_of_nonneg_right hquotient (Int.natCast_nonneg interval)
    omega
  · intro h
    exact ⟨sequence / interval + 1, by omega, by omega⟩

instance decidableCrosses (sequence : Int) (events interval : Nat) :
    Decidable (Crosses sequence events interval) := decidable_of_iff _ crosses_iff.symm

theorem snapshotEventsDue_eq (sequence : Int) (events interval : Nat) :
    snapshotEventsDue sequence events interval =
      if Crosses sequence events interval then events else 0 := by
  unfold snapshotEventsDue
  by_cases hzero : interval = 0
  · rw [if_pos hzero, if_neg fun h => absurd h.1 (by omega)]
  · have hnonneg := Int.emod_nonneg sequence (show (interval : Int) ≠ 0 by omega)
    have hlt := Int.emod_lt_of_pos sequence (show (0 : Int) < interval by omega)
    rw [if_neg hzero]
    by_cases h : Crosses sequence events interval
    · have := (crosses_iff.mp h).2
      rw [if_pos h, if_neg (by omega)]
    · have : ¬((interval : Int) ≤ events + sequence % interval) :=
        fun hle => h (crosses_iff.mpr ⟨by omega, hle⟩)
      rw [if_neg h, if_pos (by omega)]

theorem Crosses.pos (h : Crosses sequence events interval) : 0 < events := by
  have hlt := Int.emod_lt_of_pos sequence (show (0 : Int) < interval by have := h.1; omega)
  have := (crosses_iff.mp h).2
  omega

/-- Up to `2^63` every input; above it the events must not lie between those that the next multiple
is away and those that the remainder by the cast interval leaves. -/
def CastFits (current : Int64) (events interval : UInt64) : Prop :=
  interval.toNat ≤ 2 ^ 63 ∨
    ¬(current.toInt = -2 ^ 63 ∧ interval.toNat = 2 ^ 64 - 1) ∧
      let away : Int := if 0 ≤ current.toInt then interval.toNat - current.toInt
        else -current.toInt
      let left : Int := interval.toNat - current.toInt % (2 ^ 64 - interval.toNat)
      events.toNat < min away left ∨ max away left ≤ events.toNat

theorem toInt_toInt64 (interval : UInt64) :
    interval.toInt64.toInt =
      if interval.toNat < 2 ^ 63 then (interval.toNat : Int) else interval.toNat - 2 ^ 64 := by
  have hcond := BitVec.toInt_eq_toNat_cond interval.toBitVec
  have hnat : interval.toBitVec.toNat = interval.toNat := rfl
  change interval.toBitVec.toInt = _
  rw [hcond, hnat]
  split <;> split <;> omega

theorem snapshotEventsDue64_small {interval : UInt64} (hsmall : interval.toNat < 2 ^ 63)
    (current : Int64) (events : UInt64) :
    snapshotEventsDue64 current events interval =
      some (snapshotEventsDue current.toInt events.toNat interval.toNat) := by
  unfold snapshotEventsDue64 snapshotEventsDue
  rw [toInt_toInt64, if_pos hsmall]
  by_cases hzero : interval = 0
  · subst hzero
    rfl
  have hne : interval.toNat ≠ 0 := fun h => hzero (UInt64.toNat_inj.mp h)
  have hlt := Int.emod_lt_of_pos current.toInt (show (0 : Int) < interval.toNat by omega)
  simp only []
  rw [if_neg hzero, if_neg hne, if_neg (by omega), if_neg (by omega)]
  split <;> rfl

theorem snapshotEventsDue64_large {interval : UInt64} (hlarge : 2 ^ 63 ≤ interval.toNat)
    (current : Int64) (events : UInt64) :
    snapshotEventsDue64 current events interval =
      if current.toInt = -2 ^ 63 ∧ interval.toNat = 2 ^ 64 - 1 then none
      else if (interval.toNat : Int) ≤ events.toNat + current.toInt % (2 ^ 64 - interval.toNat) then
        some events.toNat
      else some 0 := by
  have hne : interval ≠ 0 := by
    rintro rfl
    exact absurd hlarge (by decide)
  have hbound := interval.toNat_lt
  have hflip : current.toInt % (interval.toNat - 2 ^ 64 : Int) =
      current.toInt % (2 ^ 64 - interval.toNat) := by
    rw [← Int.emod_neg, neg_sub]
  have hnonneg := Int.emod_nonneg current.toInt (show (2 ^ 64 - interval.toNat : Int) ≠ 0 by omega)
  have hlt := Int.emod_lt_of_pos current.toInt (show (0 : Int) < 2 ^ 64 - interval.toNat by omega)
  unfold snapshotEventsDue64
  have hdivisor : interval.toInt64.toInt = interval.toNat - 2 ^ 64 :=
    (toInt_toInt64 interval).trans (if_neg (Nat.not_lt.mpr hlarge))
  rw [if_neg hne]
  simp only [hdivisor, hflip]
  generalize current.toInt % (2 ^ 64 - interval.toNat : Int) = remainder at hnonneg hlt ⊢
  by_cases hpanic : current.toInt = -2 ^ 63 ∧ interval.toNat = 2 ^ 64 - 1
  · rw [if_pos hpanic, if_pos (by omega)]
  · rw [if_neg hpanic, if_neg (by omega), if_neg (by omega)]
    by_cases hdue : (interval.toNat : Int) ≤ events.toNat + remainder
    · rw [if_pos hdue, if_neg (by omega)]
    · rw [if_neg hdue, if_pos (by omega)]

theorem snapshotEventsDue64_narrow {interval : UInt64} (hnarrow : interval.toNat ≤ 2 ^ 63)
    (current : Int64) (events : UInt64) :
    snapshotEventsDue64 current events interval =
      some (snapshotEventsDue current.toInt events.toNat interval.toNat) := by
  rcases Nat.lt_or_eq_of_le hnarrow with hsmall | hequal
  · exact snapshotEventsDue64_small hsmall current events
  · -- The cast divisor is `-2^63`, with the same remainders.
    have hgap : (2 ^ 64 - (2 ^ 63 : Nat) : Int) = (2 ^ 63 : Nat) := by norm_num
    have hlt := Int.emod_lt_of_pos current.toInt (show (0 : Int) < (2 ^ 63 : Nat) by decide)
    rw [snapshotEventsDue64_large hequal.ge, hequal, if_neg (by omega), hgap, snapshotEventsDue,
      if_neg (show ¬(2 ^ 63 : Nat) = 0 by decide)]
    have hnonneg := Int.emod_nonneg current.toInt (show ((2 ^ 63 : Nat) : Int) ≠ 0 by decide)
    generalize current.toInt % (2 ^ 63 : Nat) = remainder at hlt hnonneg ⊢
    by_cases hdue : ((2 ^ 63 : Nat) : Int) ≤ events.toNat + remainder
    · rw [if_pos hdue, if_neg (by omega)]
    · rw [if_neg hdue, if_pos (by omega)]

/-- Above `2^63` a sequence is its own remainder, or the interval more. -/
theorem emod_wide {current interval : Int} (hinterval : 2 ^ 63 < interval)
    (hle : -2 ^ 63 ≤ current) (hlt : current < 2 ^ 63) :
    current % interval = if 0 ≤ current then current else current + interval := by
  split
  · exact Int.emod_eq_of_lt ‹_› (by omega)
  · rw [← Int.add_emod_right]
    exact Int.emod_eq_of_lt (by omega) (by omega)

theorem castFits_wide {current : Int64} {events interval : UInt64}
    (hwide : 2 ^ 63 < interval.toNat) :
    (∃ due, snapshotEventsDue64 current events interval = some due ∧
      (due ≠ 0 ↔ Crosses current.toInt events.toNat interval.toNat)) ↔
      CastFits current events interval := by
  have hbound := interval.toNat_lt
  have hlt := Int.emod_lt_of_pos current.toInt (show (0 : Int) < 2 ^ 64 - interval.toNat by omega)
  have hmod := emod_wide (show (2 : Int) ^ 63 < interval.toNat by omega) current.le_toInt
    current.toInt_lt
  rw [snapshotEventsDue64_large hwide.le, crosses_iff, CastFits, hmod]
  by_cases hpanic : current.toInt = -2 ^ 63 ∧ interval.toNat = 2 ^ 64 - 1
  · simp [hpanic]
  · rw [if_neg hpanic]
    dsimp only
    generalize current.toInt % (2 ^ 64 - interval.toNat : Int) = remainder at hlt ⊢
    by_cases hdue : (interval.toNat : Int) ≤ events.toNat + remainder
    · simp only [hdue, if_true, Option.some.injEq, exists_eq_left']
      split <;> omega
    · simp only [hdue, if_false, Option.some.injEq, exists_eq_left']
      split <;> omega

/-- The machine count tells the crossings exactly where the cast fits. -/
theorem snapshotEventsDue64_iff (current : Int64) (events interval : UInt64) :
    (∃ due, snapshotEventsDue64 current events interval = some due ∧
      (due ≠ 0 ↔ Crosses current.toInt events.toNat interval.toNat)) ↔
      CastFits current events interval := by
  rcases Nat.lt_or_ge (2 ^ 63) interval.toNat with hwide | hnarrow
  · exact castFits_wide hwide
  · refine iff_of_true ⟨_, snapshotEventsDue64_narrow hnarrow current events, ?_⟩ (.inl hnarrow)
    rw [snapshotEventsDue_eq]
    split
    · rename_i h
      exact iff_of_true h.pos.ne' h
    · rename_i h
      exact iff_of_false (fun h => h rfl) h

/-- An interval fits every sequence and number of events exactly up to `2^63`. -/
theorem castFits_all_iff (interval : UInt64) :
    (∀ current events, CastFits current events interval) ↔ interval.toNat ≤ 2 ^ 63 := by
  refine ⟨fun h => ?_, fun h _ _ => .inl h⟩
  by_contra hwide
  have hbound := interval.toNat_lt
  -- A sequence of `2^64 - interval` is its cast divisor, and leaves no remainder.
  have hcurrent : (Int64.ofInt (2 ^ 64 - interval.toNat)).toInt = 2 ^ 64 - interval.toNat :=
    Int64.toInt_ofInt_of_le (by omega) (by omega)
  have hevents : (UInt64.ofNat (2 * interval.toNat - 2 ^ 64)).toNat =
      2 * interval.toNat - 2 ^ 64 := UInt64.toNat_ofNat_of_lt' (by show _ < 2 ^ 64; omega)
  rcases h (Int64.ofInt (2 ^ 64 - interval.toNat)) (UInt64.ofNat (2 * interval.toNat - 2 ^ 64))
    with hle | ⟨-, hfits⟩
  · exact hwide hle
  · rw [hcurrent, hevents, Int.emod_self, if_pos (by omega)] at hfits
    omega

theorem emod_le_self {a b : Int} (ha : 0 ≤ a) (hb : 0 ≤ b) : a % b ≤ a := by
  have hsplit := Int.mul_ediv_add_emod a b
  have hquotient := Int.mul_nonneg hb (Int.ediv_nonneg ha hb)
  omega

/-- Within the sequences a stream can have, the cast interval changes nothing. -/
theorem snapshotEventsDue64_eq {current : Int64} {events : UInt64} (hcurrent : 0 ≤ current.toInt)
    (hlast : current.toInt + events.toNat < 2 ^ 63) (interval : UInt64) :
    snapshotEventsDue64 current events interval =
      some (snapshotEventsDue current.toInt events.toNat interval.toNat) := by
  rcases Nat.lt_or_ge interval.toNat (2 ^ 63) with hsmall | hlarge
  · exact snapshotEventsDue64_small hsmall current events
  · have hbound := interval.toNat_lt
    have hle := emod_le_self hcurrent (show (0 : Int) ≤ 2 ^ 64 - interval.toNat by omega)
    have hle' := emod_le_self hcurrent (Int.natCast_nonneg interval.toNat)
    rw [snapshotEventsDue64_large hlarge, if_neg (by omega), if_neg (by omega),
      snapshotEventsDue_eq,
      if_neg fun h => absurd (crosses_iff.mp h).2 (by omega)]

theorem calculateAdditionalEvents_eq {current events interval : Int64}
    (hcurrent : 0 ≤ current.toInt)
    (hevents : 0 ≤ events.toInt) (hinterval : 0 ≤ interval.toInt) :
    (calculateAdditionalEvents current events interval).toInt =
      snapshotEventsDue current.toInt events.toInt.toNat interval.toInt.toNat := by
  simp only [calculateAdditionalEvents, snapshotEventsDue, Int64.le_iff_toInt_le,
    Int64.lt_iff_toInt_lt, Int64.toInt_sub, Int64.toInt_mod, Int.tmod_eq_emod_of_nonneg hcurrent,
    Int.toNat_of_nonneg hinterval, Int64.toInt_zero]
  by_cases hzero : interval.toInt ≤ 0
  · rw [if_pos hzero, if_pos (by omega)]
    rfl
  have hnonneg := Int.emod_nonneg current.toInt (show interval.toInt ≠ 0 by omega)
  have hlt := Int.emod_lt_of_pos current.toInt (show 0 < interval.toInt by omega)
  have hbound := interval.toInt_lt
  have hnext : (interval.toInt - current.toInt % interval.toInt).bmod (2 ^ 64) =
      interval.toInt - current.toInt % interval.toInt := Int.bmod_eq_of_le (by omega) (by omega)
  rw [if_neg hzero, hnext, if_neg (show ¬interval.toInt.toNat = 0 by omega)]
  by_cases hdue : events.toInt < interval.toInt - current.toInt % interval.toInt
  · rw [if_pos hdue, if_pos (by omega)]
    rfl
  · rw [if_neg hdue, if_neg (by omega), Int.toNat_of_nonneg hevents]

theorem TypeScript.snapshotEventsDue_eq {current : Int} (hcurrent : 0 ≤ current)
    (hevents : (events : Int) ≤ maxSafeInteger) (hinterval : (interval : Int) ≤ maxSafeInteger) :
    TypeScript.snapshotEventsDue current events interval =
      .ok (EventStore.snapshotEventsDue current events interval : Int) := by
  unfold TypeScript.snapshotEventsDue EventStore.snapshotEventsDue safeIntegerArgument refuse
  rw [if_neg (by omega), if_neg (by omega)]
  change (if (interval : Int) ≤ 0 then _ else _) = _
  by_cases hzero : interval = 0
  · rw [if_pos (by omega), if_pos hzero]
    rfl
  have hnonneg := Int.emod_nonneg current (show (interval : Int) ≠ 0 by omega)
  have hlt := Int.emod_lt_of_pos current (show (0 : Int) < interval by omega)
  have hremainder : (current.tmod interval + interval).tmod interval = current % interval := by
    rw [Int.tmod_eq_emod_of_nonneg hcurrent, Int.tmod_eq_emod_of_nonneg (by omega),
      Int.add_emod_right, Int.emod_emod]
  rw [if_neg (by omega), if_neg hzero, hremainder]
  by_cases hdue : events < interval - (current % interval).toNat
  · rw [if_pos hdue, if_pos (by omega)]
    rfl
  · rw [if_neg hdue, if_neg (by omega)]
    rfl

/-! Runs of commits. -/

section Runs

variable {A : Aggregate}

/-- The event sequence of the snapshot that storing the commit writes. -/
def writtenSnapshot (commit : Commit Empty) : Option Int :=
  (applyStream .absent commit).snapshot.map (·.eventSequence)

/-- The snapshot of the state after the events fits its item. -/
def SnapshotFits (loaded : Loaded A) (events : List A.Event) : Prop :=
  ∀ state, A.encode (events.foldl A.apply loaded.aggregate) = .ok state →
    snapshotFits ⟨A.entityType, loaded.entityId, EventSequence.next loaded.snapshotSequence,
      loaded.sequence + events.length, state⟩ = .ok true

/-- Commits staged one after the other, no snapshot that is due over its budget. -/
inductive Staging (config : StoreConfig A) : Loaded A → List (Commit Empty) → Loaded A → Prop
  | nil (loaded : Loaded A) : Staging config loaded [] loaded
  | cons {loaded next last : Loaded A} {events : List A.Event} {stamped : Metadata}
      {commit : Commit Empty} {commits : List (Commit Empty)}
      (staged : config.stage loaded events stamped = .ok (next, commit))
      (fits : 0 < snapshotEventsDue loaded.sequence events.length config.interval →
        SnapshotFits loaded events)
      (rest : Staging config next commits last) : Staging config loaded (commit :: commits) last

/-- The ends of the commits that cross a multiple, by the lengths of all of them. -/
def crossings (interval : Nat) : Int → List Nat → List Int
  | _, [] => []
  | sequence, events :: commits =>
    (if Crosses sequence events interval then [sequence + events] else []) ++
      crossings interval (sequence + events) commits

theorem serializeEvents_le {entityId : EntityId} {metadata : Metadata} {events : List A.Event}
    {stored : List SerializedEvent} (hle : sequence ≤ maxSequence)
    (h : serializeEvents A entityId sequence metadata events = .ok stored) :
    sequence + events.length ≤ maxSequence := by
  induction events generalizing sequence stored with
  | nil => simpa using hle
  | cons event events ih =>
    unfold serializeEvents at h
    split at h
    · cases h
    · rename_i next hnext
      obtain ⟨hlt, rfl⟩ := EventSequence.checkedNext_eq_some.mp hnext
      obtain ⟨_, -, h⟩ := bind_eq_ok.mp h
      obtain ⟨rest, hrest, -⟩ := bind_eq_ok.mp h
      have := ih (by omega) hrest
      rw [List.length_cons]
      omega

theorem stage_written {config : StoreConfig A} {loaded next : Loaded A} {events : List A.Event}
    {stamped : Metadata} {commit : Commit Empty}
    (h : config.stage loaded events stamped = .ok (next, commit))
    (hfits : 0 < snapshotEventsDue loaded.sequence events.length config.interval →
      SnapshotFits loaded events) :
    commit.events.length = events.length ∧ next.sequence = loaded.sequence + events.length ∧
      (loaded.sequence ≤ maxSequence → next.sequence ≤ maxSequence) ∧
      writtenSnapshot commit = if Crosses loaded.sequence events.length config.interval then
        some (loaded.sequence + events.length) else none := by
  simp only [StoreConfig.stage, bind_eq_ok] at h
  obtain ⟨serialized, hserialized, operations, -, state, hstate, views, -, snapshot, hsnapshot,
    h⟩ := h
  cases h
  obtain ⟨hnumbered, hlength, -⟩ := serializeEvents_fields hserialized
  have hsequence : (serialized.getLast?.map (·.sequence)).getD loaded.sequence =
      loaded.sequence + events.length := by
    cases hlast : serialized.getLast? with
    | none =>
      obtain rfl := List.getLast?_eq_none_iff.mp hlast
      simp [← hlength]
    | some last =>
      have := Consecutive.number_of_getLast? hnumbered hlast
      simp only [Option.map_some, Option.getD_some]
      omega
  refine ⟨hlength, hsequence, fun hle => hsequence ▸ serializeEvents_le hle hserialized, ?_⟩
  rw [snapshotEventsDue_eq] at hfits hsnapshot hstate
  by_cases hcross : Crosses loaded.sequence events.length config.interval
  · rw [if_pos hcross] at hfits hsnapshot hstate ⊢
    have hdue : decide (0 < events.length) = true := decide_eq_true hcross.pos
    obtain ⟨last, hlast⟩ : ∃ last, serialized.getLast? = some last :=
      ⟨_, List.getLast?_eq_some_getLast fun hnil => by
        have := hcross.pos
        simp [hnil] at hlength
        omega⟩
    have hnumber : last.sequence = loaded.sequence + events.length := by
      have := Consecutive.number_of_getLast? hnumbered hlast
      omega
    rw [hdue, Bool.true_or] at hstate
    have hencoded := encodeWhen_ok hstate rfl
    simp only [hdue, dueSnapshot, hlast, NewSnapshot.withinBudget, hnumber,
      hfits hcross.pos _ hencoded] at hsnapshot
    cases hsnapshot
    simp [writtenSnapshot, applyStream, hlast, hnumber]
  · rw [if_neg hcross] at hsnapshot ⊢
    cases hsnapshot
    rw [writtenSnapshot, applyStream]
    split <;> rfl

theorem Staging.written {config : StoreConfig A} {loaded last : Loaded A}
    {commits : List (Commit Empty)} (h : Staging config loaded commits last) :
    commits.filterMap writtenSnapshot =
      crossings config.interval loaded.sequence (commits.map (·.events.length)) ∧
    last.sequence = loaded.sequence + (commits.map (·.events.length)).sum ∧
    (loaded.sequence ≤ maxSequence → last.sequence ≤ maxSequence) := by
  induction h with
  | nil loaded => simp [crossings]
  | cons staged fits _ ih =>
    obtain ⟨hlength, hsequence, hle, hwritten⟩ := stage_written staged fits
    obtain ⟨hrest, hlast, hbound⟩ := ih
    rw [hsequence] at hrest hlast
    refine ⟨?_, ?_, fun h => hbound (hle h)⟩
    · rw [List.map_cons, crossings, hlength, ← hrest, List.filterMap_cons, hwritten]
      split <;> simp_all
    · rw [hlast, List.map_cons, List.sum_cons, hlength]
      omega

end Runs

/-- A multiple of `2^63 + 1` is reached, and no snapshot is due. -/
theorem wide_interval_missed :
    Crosses (2 ^ 63 - 1) 2 (2 ^ 63 + 1) ∧
      snapshotEventsDue64 (Int64.ofInt (2 ^ 63 - 1)) 2 (UInt64.ofNat (2 ^ 63 + 1)) = some 0 := by
  refine ⟨⟨by decide, 1, by decide, by decide⟩, by decide +kernel⟩

/-- The machine count is right exactly where the cast fits, and for all sequences and counts exactly
up to an interval of `2^63`; snapshots end the commits that cross; the ports agree. -/
theorem snapshots_due_at_crossings (current : Int64) (events interval : UInt64) :
    ((∀ (current : Int64) (events : UInt64), ∃ due,
      snapshotEventsDue64 current events interval = some due ∧
      (due ≠ 0 ↔ Crosses current.toInt events.toNat interval.toNat)) ↔
      interval.toNat ≤ 2 ^ 63) ∧
    ((∃ due, snapshotEventsDue64 current events interval = some due ∧
      (due ≠ 0 ↔ Crosses current.toInt events.toNat interval.toNat)) ↔
      CastFits current events interval) ∧
    (0 ≤ current.toInt → current.toInt + events.toNat ≤ maxSequence →
      snapshotEventsDue64 current events interval =
        some (snapshotEventsDue current.toInt events.toNat interval.toNat)) ∧
    (∀ {A : Aggregate} (config : StoreConfig A) {loaded last : Loaded A}
      {commits : List (Commit Empty)}, Staging config loaded commits last → loaded.sequence = 0 →
      commits.filterMap writtenSnapshot =
        crossings config.interval 0 (commits.map (·.events.length)) ∧
      last.sequence = (commits.map (·.events.length)).sum ∧ last.sequence ≤ maxSequence) ∧
    (∀ count size : Int64, 0 ≤ current.toInt → 0 ≤ count.toInt → 0 ≤ size.toInt →
      (calculateAdditionalEvents current count size).toInt =
        snapshotEventsDue current.toInt count.toInt.toNat size.toInt.toNat) ∧
    ∀ count size : Nat, 0 ≤ current.toInt → (count : Int) ≤ TypeScript.maxSafeInteger →
      (size : Int) ≤ TypeScript.maxSafeInteger →
      TypeScript.snapshotEventsDue current.toInt count size =
        .ok (snapshotEventsDue current.toInt count size : Int) := by
  refine ⟨?_, snapshotEventsDue64_iff current events interval, fun hcurrent hlast => ?_, ?_, ?_, ?_⟩
  · simp only [snapshotEventsDue64_iff]
    exact castFits_all_iff interval
  · exact snapshotEventsDue64_eq hcurrent (by unfold maxSequence at hlast; omega) interval
  · intro A config loaded last commits h hzero
    obtain ⟨hwritten, hsequence, hle⟩ := h.written
    rw [hzero] at hwritten hsequence hle
    exact ⟨hwritten, by rw [hsequence, zero_add], hle (by decide)⟩
  · exact fun count size => calculateAdditionalEvents_eq
  · exact fun count size hcurrent => TypeScript.snapshotEventsDue_eq hcurrent

end EventStore
