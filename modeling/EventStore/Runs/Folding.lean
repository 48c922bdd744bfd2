import EventStore.Runs.Duplicates
import EventStore.Memory.StreamLog

/-!
What a stream's log means to an aggregate: the state its events fold to. Loads and staged commits
agree with the fold of the whole log as long as encodings decode back to the value encoded.
-/
namespace EventStore

open Result

namespace Aggregate

variable (A : Aggregate)

def foldFrom (state : A.State) : List SerializedEvent → Except Error A.State
  | [] => .ok state
  | stored :: log => A.read stored >>= fun event => foldFrom (A.apply state event) log

def fold (log : List SerializedEvent) : Except Error A.State := A.foldFrom A.initial log

/-- The aggregate's JSON and an event's stored form decode back to the value encoded. -/
structure RoundTrips : Prop where
  state : ∀ {state bytes}, A.encode state = .ok bytes → A.decode bytes = .ok state
  event : ∀ {entityId sequence event metadata stored},
    serializeEvent A entityId sequence event metadata = .ok stored → A.read stored = .ok event

variable {A}

theorem foldFrom_append (state : A.State) (log more : List SerializedEvent) :
    A.foldFrom state (log ++ more) =
      (A.foldFrom state log >>= fun state => A.foldFrom state more) := by
  induction log generalizing state with
  | nil => rfl
  | cons stored log ih =>
    simp only [List.cons_append, foldFrom]
    cases A.read stored with
    | error error => rfl
    | ok event => exact ih (A.apply state event)

theorem fold_append {log more : List SerializedEvent} {state : A.State}
    (h : A.fold log = .ok state) : A.fold (log ++ more) = A.foldFrom state more := by
  rw [fold, foldFrom_append, show A.foldFrom A.initial log = .ok state from h]
  rfl

end Aggregate

section Serializing

variable {A : Aggregate} {entityId : EntityId} {sequence : Int} {metadata : Metadata}
  {events : List A.Event} {stored : List SerializedEvent}

def restamped (metadata : Metadata) (stored : List SerializedEvent) : List SerializedEvent :=
  stored.map fun event => { event with metadata }

theorem restamped_append (metadata : Metadata) (stored more : List SerializedEvent) :
    restamped metadata (stored ++ more) = restamped metadata stored ++ restamped metadata more :=
  List.map_append

theorem serializeEvent_fields {event : A.Event} {one : SerializedEvent}
    (h : serializeEvent A entityId sequence event metadata = .ok one) :
    one.sequence = sequence ∧ one.entityId = entityId ∧ one.entityType = A.entityType ∧
      one.metadata = metadata := by
  simp only [serializeEvent, bind_eq_ok] at h
  obtain ⟨payload, -, h⟩ := h
  cases h
  exact ⟨rfl, rfl, rfl, rfl⟩

theorem serializeEvent_restamp {event : A.Event} {one : SerializedEvent} (other : Metadata)
    (h : serializeEvent A entityId sequence event metadata = .ok one) :
    serializeEvent A entityId sequence event other = .ok { one with metadata := other } := by
  simp only [serializeEvent, bind_eq_ok] at h ⊢
  obtain ⟨payload, hpayload, h⟩ := h
  cases h
  exact ⟨payload, hpayload, rfl⟩

theorem serializeEvents_cons {event : A.Event}
    (h : serializeEvents A entityId sequence metadata (event :: events) = .ok stored) :
    ∃ one rest, stored = one :: rest ∧
      serializeEvent A entityId (sequence + 1) event metadata = .ok one ∧
      serializeEvents A entityId (sequence + 1) metadata events = .ok rest := by
  unfold serializeEvents at h
  split at h
  · cases h
  · rename_i next hnext
    obtain ⟨-, rfl⟩ := EventSequence.checkedNext_eq_some.mp hnext
    simp only [bind_eq_ok] at h
    obtain ⟨one, hone, rest, hrest, h⟩ := h
    cases h
    exact ⟨one, rest, rfl, hone, hrest⟩

/-- Serialized events are numbered from the next sequence on, with the given metadata. -/
theorem serializeEvents_fields
    (h : serializeEvents A entityId sequence metadata events = .ok stored) :
    Consecutive.From SerializedEvent.sequence (sequence + 1) stored ∧
      stored.length = events.length ∧
      ∀ one ∈ stored, one.entityId = entityId ∧ one.entityType = A.entityType ∧
        one.metadata = metadata := by
  induction events generalizing sequence stored with
  | nil =>
    cases h
    exact ⟨trivial, rfl, by simp⟩
  | cons event events ih =>
    obtain ⟨one, rest, rfl, hone, hrest⟩ := serializeEvents_cons h
    obtain ⟨hnumbered, hlength, hrest⟩ := ih hrest
    obtain ⟨hsequence, hfields⟩ := serializeEvent_fields hone
    refine ⟨⟨hsequence, hnumbered⟩, by simp [hlength], ?_⟩
    simp only [List.forall_mem_cons]
    exact ⟨hfields, hrest⟩

/-- Serialized events replay to the state the typed ones lead to, under any metadata. -/
theorem foldFrom_serializeEvents (hA : A.RoundTrips) (other : Metadata) (state : A.State)
    (h : serializeEvents A entityId sequence metadata events = .ok stored) :
    A.foldFrom state (restamped other stored) = .ok (events.foldl A.apply state) := by
  induction events generalizing sequence stored state with
  | nil =>
    cases h
    rfl
  | cons event events ih =>
    obtain ⟨one, rest, rfl, hone, hrest⟩ := serializeEvents_cons h
    simp only [restamped, List.map_cons, Aggregate.foldFrom]
    rw [hA.event (serializeEvent_restamp other hone)]
    exact ih (A.apply state event) hrest

theorem read_serializeEvents (hA : A.RoundTrips)
    (h : serializeEvents A entityId sequence metadata events = .ok stored) :
    ∀ one ∈ stored, ∀ other, A.read { one with metadata := other } = A.read one := by
  induction events generalizing sequence stored with
  | nil =>
    cases h
    simp
  | cons event events ih =>
    obtain ⟨one, rest, rfl, hone, hrest⟩ := serializeEvents_cons h
    rw [List.forall_mem_cons]
    refine ⟨fun other => ?_, ih hrest⟩
    rw [hA.event (serializeEvent_restamp other hone), hA.event hone]

theorem restamped_self (h : ∀ one ∈ stored, one.metadata = metadata) :
    restamped metadata stored = stored := by
  rw [restamped]
  refine (List.map_congr_left fun one hone => ?_).trans (List.map_id stored)
  rw [← h one hone]
  rfl

theorem From_restamped {n : Int}
    (h : Consecutive.From SerializedEvent.sequence n stored) :
    Consecutive.From SerializedEvent.sequence n (restamped metadata stored) := by
  induction stored generalizing n with
  | nil => trivial
  | cons one stored ih => exact ⟨h.1, ih h.2⟩

end Serializing

section Prefixes

variable {A : Aggregate} {log log' : List SerializedEvent}

theorem take_prefix_eq (h : log <+: log') {n : Nat} (hn : n ≤ log.length) :
    log'.take n = log.take n := by
  obtain ⟨more, rfl⟩ := h
  exact List.take_append_of_le_length hn

/-- The snapshot's payload is the fold of the log's first `eventSequence` events. -/
structure SerializedSnapshot.Of (A : Aggregate) (log : List SerializedEvent)
    (snapshot : SerializedSnapshot) : Prop where
  nonneg : 0 ≤ snapshot.eventSequence
  within : snapshot.eventSequence ≤ log.length
  state : ∃ state, A.fold (log.take snapshot.eventSequence.toNat) = .ok state ∧
    A.encode state = .ok snapshot.payload

theorem SerializedSnapshot.Of.mono {snapshot : SerializedSnapshot} (h : snapshot.Of A log)
    (hlog : log <+: log') : snapshot.Of A log' := by
  have := h.nonneg
  have := h.within
  have := hlog.length_le
  refine ⟨h.nonneg, by omega, ?_⟩
  rw [take_prefix_eq hlog (by omega)]
  exact h.state

structure Loaded.Of (log : List SerializedEvent) (loaded : Loaded A) : Prop where
  nonneg : 0 ≤ loaded.sequence
  within : loaded.sequence ≤ log.length
  state : A.fold (log.take loaded.sequence.toNat) = .ok loaded.aggregate

theorem Loaded.Of.mono {loaded : Loaded A} (h : loaded.Of log) (hlog : log <+: log') :
    loaded.Of log' := by
  have := h.nonneg
  have := h.within
  have := hlog.length_le
  refine ⟨h.nonneg, by omega, ?_⟩
  rw [take_prefix_eq hlog (by omega)]
  exact h.state

theorem Loaded.start_of (hA : A.RoundTrips) {entityId : EntityId}
    {found : Option SerializedSnapshot} {loaded : Loaded A}
    (hfound : ∀ snapshot, found = some snapshot → snapshot.Of A log)
    (h : Loaded.start entityId found = .ok loaded) :
    loaded.Of log ∧ loaded.entityId = entityId := by
  cases found with
  | none =>
    cases h
    exact ⟨⟨le_rfl, Int.natCast_nonneg _, rfl⟩, rfl⟩
  | some snapshot =>
    have hof := hfound snapshot rfl
    obtain ⟨state, hstate, hencode⟩ := hof.state
    simp only [Loaded.start, hA.state hencode] at h
    cases h
    exact ⟨⟨hof.nonneg, hof.within, hstate⟩, rfl⟩

/-- Replaying from above the loaded place folds nothing, or the whole log. -/
theorem Loaded.replayAll_drop (hlog : Consecutive.From SerializedEvent.sequence 1 log)
    {loaded loaded' : Loaded A} (hof : loaded.Of log) {k : Nat} (hk : loaded.sequence ≤ k)
    (h : loaded.replayAll (log.drop k) = .ok loaded') :
    loaded'.Of log ∧ loaded'.entityId = loaded.entityId ∧
      (loaded.sequence = k → loaded'.sequence = log.length) := by
  induction hrest : log.drop k generalizing loaded k with
  | nil =>
    rw [hrest] at h
    cases h
    have := List.drop_eq_nil_iff.mp hrest
    have := hof.within
    exact ⟨hof, rfl, fun heq => by omega⟩
  | cons stored rest ih =>
    rw [hrest] at h
    simp only [Loaded.replayAll, bind_eq_ok] at h
    obtain ⟨next, hnext, h⟩ := h
    obtain ⟨hsequence, event, hread, rfl⟩ := Loaded.replay_eq_ok.mp hnext
    obtain ⟨hlt, hnumber, htake, hdrop⟩ := Consecutive.of_drop_cons hlog hrest
    -- The event read is the next one only when the read began right where the load was.
    have hplace : loaded.sequence = k := by
      unfold EventSequence.next at hsequence
      omega
    have hof' : (loaded.after stored event).Of log := by
      have hstored : stored.sequence.toNat = k + 1 := by omega
      have hbefore : loaded.sequence.toNat = k := by omega
      refine ⟨?_, ?_, ?_⟩ <;> simp only [Loaded.after]
      · omega
      · omega
      · rw [hstored, htake, ← hbefore, Aggregate.fold_append hof.state]
        simp only [Aggregate.foldFrom, hread]
        rfl
    have hat : (loaded.after stored event).sequence = k + 1 := by simp only [Loaded.after]; omega
    obtain ⟨hof'', hid', hend⟩ := ih hof' (by push_cast; omega) (hdrop ▸ h) hdrop
    exact ⟨hof'', hid', fun _ => hend (by push_cast; omega)⟩

end Prefixes

/-- A read after a sequence finds the end of the log, from there or from the floor on. -/
theorem Stream.Holds.eventsAfter {s : Stores} {entityId : EntityId} {log : List SerializedEvent}
    (h : (s.held entityId).Holds log) {after : Int} (hafter : 0 ≤ after) :
    ∃ k : Nat, after ≤ k ∧ s.eventsAfter entityId after = log.drop k ∧
      ((after < (s.held entityId).head → (s.held entityId).events.contains (after + 1) = true) →
        after ≤ (s.held entityId).head → after = k) := by
  obtain ⟨k, hevents, hk⟩ := h.above hafter
  refine ⟨k, by omega, hevents, fun hnext hat => ?_⟩
  obtain heq | ⟨hlt, hle, habsent, -⟩ := hk
  · exact heq
  · rw [hnext (by omega)] at habsent
    cases habsent

end EventStore
