import EventStore.Core.Projection

/-!
Aggregates and the pure parts of the store: decoding and folding stored events, serializing
decided ones, and staging a commit. A handler's services are the text of what they answered.
-/
namespace EventStore

open Result

/-- A migration of stored events. It keeps the sequence and the metadata, as `JsonUpcaster` does:
of application code this is an assumption. -/
structure Upcaster where
  canUpcast : EventType → Int → Bool
  upcast : SerializedEvent → Except BoxError SerializedEvent
  keeps : ∀ event migrated, upcast event = .ok migrated →
    migrated.sequence = event.sequence ∧ migrated.metadata = event.metadata

structure JsonUpcaster where
  eventType : EventType
  fromVersion : Int
  toVersion : Int
  migrate : Json → Except BoxError Json

namespace JsonUpcaster

variable (read : Bytes → Except BoxError Json) (write : Json → Except BoxError Bytes)

def canUpcast (u : JsonUpcaster) (eventType : EventType) (version : Int) : Bool :=
  eventType = u.eventType && version = u.fromVersion

def upcast (u : JsonUpcaster) (event : SerializedEvent) : Except BoxError SerializedEvent := do
  let payload ← u.migrate (← read event.payload)
  return { event with payload := ← write payload, version := u.toVersion }

def upcaster (u : JsonUpcaster) : Upcaster where
  canUpcast := u.canUpcast
  upcast := u.upcast read write
  keeps event migrated h := by
    obtain ⟨_, _, h⟩ := bind_eq_ok.mp h
    obtain ⟨_, _, h⟩ := bind_eq_ok.mp h
    obtain ⟨_, _, h⟩ := bind_eq_ok.mp h
    cases h
    exact ⟨rfl, rfl⟩

end JsonUpcaster

def upcastEvent : List Upcaster → SerializedEvent → Except Error SerializedEvent
  | [], event => .ok event
  | upcaster :: upcasters, event =>
    if upcaster.canUpcast event.eventType event.version then
      match upcaster.upcast event with
      | .error source => .error (.replay event.eventType event.version .upcast source)
      | .ok migrated => upcastEvent upcasters migrated
    else upcastEvent upcasters event

structure Aggregate where
  State : Type
  Event : Type
  Command : Type
  Failure : Type
  entityType : EntityType
  snapshotInterval : Option Nat
  initial : State
  apply : State → Event → State
  handle : State → Command → String → Except Failure (List Event)
  rejectionEvents : State → Failure → List Event
  toRejection : Failure → Option Rejection
  failureText : Failure → String
  eventType : Event → EventType
  eventVersion : Event → Int
  toPayload : Event → Except String Bytes
  fromPayload : EventType → Int → Bytes → Except String Event
  upcasters : List Upcaster
  encode : State → Except String Bytes
  decode : Bytes → Except String State
  commandType : Command → String
  canonicalPayload : Command → Except String (Option Bytes)

structure Loaded (A : Aggregate) where
  entityId : EntityId
  aggregate : A.State
  sequence : Int
  snapshotSequence : Int
  seenCommandIds : List CommandId

variable {A : Aggregate}

def Aggregate.decodeEvent (A : Aggregate) (event : SerializedEvent) : Except Error A.Event :=
  match A.fromPayload event.eventType event.version event.payload with
  | .error source => .error (.replay event.eventType event.version .deserialize (.text source))
  | .ok typed => .ok typed

namespace Loaded

def new (entityId : EntityId) : Loaded A := ⟨entityId, A.initial, 0, 0, []⟩

def insertSeen (seen : List CommandId) (commandId : Option CommandId) : List CommandId :=
  match commandId.filter (fun id => id ≠ "") with
  | none => seen
  | some id => id :: seen

def replay (loaded : Loaded A) (stored : SerializedEvent) : Except Error (Loaded A) :=
  if stored.sequence ≠ EventSequence.next loaded.sequence then
    .error (.sequenceGap loaded.entityId loaded.sequence stored.sequence)
  else do
    let event ← upcastEvent A.upcasters stored
    let typed ← A.decodeEvent event
    return { loaded with
      aggregate := A.apply loaded.aggregate typed
      sequence := event.sequence
      seenCommandIds := insertSeen loaded.seenCommandIds event.metadata.commandId }

def replayAll (loaded : Loaded A) : List SerializedEvent → Except Error (Loaded A)
  | [] => .ok loaded
  | event :: events => do
    let loaded ← loaded.replay event
    loaded.replayAll events

def hasSeen (loaded : Loaded A) (commandId : CommandId) : Bool :=
  commandId ≠ "" && loaded.seenCommandIds.contains commandId

def start (entityId : EntityId) : Option SerializedSnapshot → Except Error (Loaded A)
  | none => .ok (new entityId)
  | some snapshot =>
    match A.decode snapshot.payload with
    | .error source => .error (.snapshot entityId source)
    | .ok aggregate =>
      .ok ⟨entityId, aggregate, snapshot.eventSequence, snapshot.sequence, []⟩

end Loaded

def serializeEvent (A : Aggregate) (entityId : EntityId) (sequence : Int) (event : A.Event)
    (metadata : Metadata) : Except Error SerializedEvent := do
  let payload ← (A.toPayload event).mapError .json
  return ⟨EventId.forEvent entityId sequence, sequence, A.eventType event, A.eventVersion event,
    entityId, A.entityType, payload, metadata⟩

def serializeEvents (A : Aggregate) (entityId : EntityId) (sequence : Int)
    (metadata : Metadata) : List A.Event → Except Error (List SerializedEvent)
  | [] => .ok []
  | event :: events =>
    match EventSequence.checkedNext sequence with
    | none =>
      .error (.invalidCommit ("entity " ++ entityId ++ " is at the maximum event sequence"))
    | some sequence => do
      let stored ← serializeEvent A entityId sequence event metadata
      return stored :: (← serializeEvents A entityId sequence metadata events)

def snapshotEventsDue (current : Int) (events interval : Nat) : Nat :=
  if interval = 0 then 0
  else if events < interval - (current % interval).toNat then 0
  else events

/-- On machine integers, `none` where it would panic. -/
def snapshotEventsDue64 (current : Int64) (events interval : UInt64) : Option Nat :=
  if interval = 0 then some 0
  else
    let divisor := interval.toInt64.toInt
    if current.toInt = -2 ^ 63 ∧ divisor = -1 then none
    else
      let remainder := (current.toInt % divisor).toNat
      if interval.toNat < remainder then none
      else if events.toNat < interval.toNat - remainder then some 0
      else some events.toNat

def calculateAdditionalEvents (currentSequence numEvents maxSize : Int64) : Int64 :=
  if maxSize ≤ 0 then 0
  else if numEvents < maxSize - currentSequence % maxSize then 0
  else numEvents

def encodeWhen (A : Aggregate) (needed : Bool) (state : A.State) : Except Error (Option Bytes) :=
  if needed then do return some (← (A.encode state).mapError .json)
  else .ok none

def dueSnapshot (A : Aggregate) (due : Bool) (entityId : EntityId) (snapshotSequence : Int)
    (serialized : List SerializedEvent) (state : Bytes) : Except Error (Option NewSnapshot) :=
  match due, serialized.getLast? with
  | true, some last =>
    NewSnapshot.withinBudget ⟨A.entityType, EventSequence.next snapshotSequence, state⟩ entityId
      last.sequence
  | _, _ => .ok none

structure RetryPolicy where
  maxAttempts : Nat
  deadline : Option Nat

structure DigestInput where
  commandType : String
  targets : List EntityId
  payload : Bytes
  principal : String

/-- The recovery window and the deadline are in milliseconds. -/
structure OutcomeConfig where
  digester : DigestInput → Except String String
  recoveryWait : Nat
  retry : RetryPolicy
  staleFenceCode : String
  staleVersionCode : String

/-- A repository whose projectors write no rows of its own kind has no operations. -/
structure StoreConfig (A : Aggregate) (Op : Type := Empty) where
  snapshotInterval : Nat
  catchUpThreshold : Nat
  projectors : List (EntityId → A.State → List A.Event → Except String (List Op))
  commitProjectors : List CommitProjector
  outcomes : Option OutcomeConfig

namespace StoreConfig

variable {Op : Type}

def interval (config : StoreConfig A Op) : Nat :=
  A.snapshotInterval.getD config.snapshotInterval

def runProjectors (entityId : EntityId) (state : A.State) (events : List A.Event) :
    List (EntityId → A.State → List A.Event → Except String (List Op)) → Except Error (List Op)
  | [] => .ok []
  | projector :: projectors =>
    match projector entityId state events with
    | .error source => .error (.projector (.text source))
    | .ok operations => do
      return operations ++ (← runProjectors entityId state events projectors)

def projectStage (config : StoreConfig A Op) (commitId : String) (entityId : EntityId)
    (serialized : List SerializedEvent) (state : Bytes) : Except Error (List ProjectedView) :=
  if config.commitProjectors.isEmpty then .ok []
  else
    projectApplication config.commitProjectors
      ⟨commitId, [.new entityId A.entityType serialized state]⟩

def stage (config : StoreConfig A Op) (loaded : Loaded A) (events : List A.Event)
    (stamped : Metadata) : Except Error (Loaded A × Commit Op) := do
  let serialized ← serializeEvents A loaded.entityId loaded.sequence stamped events
  let due := decide (0 < snapshotEventsDue loaded.sequence events.length config.interval)
  let aggregate := events.foldl A.apply loaded.aggregate
  let operations ← runProjectors loaded.entityId aggregate events config.projectors
  let state ← encodeWhen A (due || !config.commitProjectors.isEmpty) aggregate
  let views ← config.projectStage stamped.commitId loaded.entityId serialized
    (state.getD .empty)
  let snapshot ← dueSnapshot A due loaded.entityId loaded.snapshotSequence serialized
    (state.getD .empty)
  return (
    { loaded with
      aggregate
      sequence := (serialized.getLast?.map (·.sequence)).getD loaded.sequence
      snapshotSequence := (snapshot.map (·.sequence)).getD loaded.snapshotSequence
      seenCommandIds := Loaded.insertSeen loaded.seenCommandIds stamped.commandId },
    { entityId := loaded.entityId, events := serialized, snapshot, operations, views })

end StoreConfig

end EventStore
