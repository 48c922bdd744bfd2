import EventStore.Core.Transactions

/-!
Staging events with projectors, for a repository with operations of any kind. A handle keeps the
aggregate, the events appended through it and the projector set first given; every append derives
operations, snapshot and state anew from all of them.
-/
namespace EventStore.Appends

open Result

variable {Op : Type} {A : Aggregate}

/-- A projector of one aggregate type, with the allocation it is told from others by. -/
structure Projector (A : Aggregate) (Op : Type) where
  identity : Nat
  project : EntityId → A.State → List A.Event → Except String (List Op)

structure StreamState (Op : Type) where
  entityId : EntityId
  entityType : EntityType
  head : Int
  seenCommandIds : List CommandId
  events : List SerializedEvent
  snapshot : Option NewSnapshot
  operations : List Op
  state : Bytes

structure Read (A : Aggregate) (Op : Type) where
  transaction : Nat
  index : Nat
  loaded : Loaded A
  baseSequence : Int
  appended : List A.Event
  projectors : Option (List (Projector A Op))

structure Transaction (Op : Type) where
  id : Nat
  snapshotInterval : Nat
  streams : List (StreamState Op)
  fences : List ReadFence
  commitProjectors : List CommitProjector
  lateCommitProjector : Bool
  poisoned : Bool
  finished : Bool

def runProjectors (entityId : EntityId) (state : A.State) (events : List A.Event)
    (projectors : List (Projector A Op)) : Except Error (List Op) :=
  StoreConfig.runProjectors entityId state events (projectors.map (·.project))

structure Store (A : Aggregate) (Op : Type) where
  snapshotInterval : Nat
  projectors : List (Projector A Op)
  commitProjectors : List CommitProjector

/-- The store with these settings; staging reads no others. -/
def Store.config (store : Store A Op) : StoreConfig A Op :=
  ⟨store.snapshotInterval, 0, store.projectors.map (·.project), store.commitProjectors, none⟩

def Store.stage (store : Store A Op) (loaded : Loaded A) (events : List A.Event)
    (stamped : Metadata) : Except Error (Loaded A × Commit Op) :=
  store.config.stage loaded events stamped

namespace Read

def applied (read : Read A Op) (events : List A.Event) : Read A Op :=
  { read with loaded := { read.loaded with
    aggregate := events.foldl A.apply read.loaded.aggregate } }

def projectorsOf (read : Read A Op) (named : List (Projector A Op)) : List (Projector A Op) :=
  if named.isEmpty then read.projectors.getD [] else named

/-- The handle after an append: the first set an append with events names is the stream's. -/
def appending (read : Read A Op) (named : List (Projector A Op)) (events : List A.Event)
    (serialized : List SerializedEvent) : Read A Op :=
  { read with
    projectors := if read.projectors.isNone && !named.isEmpty then some named else read.projectors
    appended := read.appended ++ events
    loaded := { read.loaded with
      sequence := (serialized.getLast?.map (·.sequence)).getD read.loaded.sequence } }

end Read

namespace Transaction

def checkOpen (tx : Transaction Op) : Except Error Unit :=
  refuse tx.finished
    (.commandOrder "the command replayed a stored outcome, so this transaction is finished")

def hasRead (tx : Transaction Op) (entityId : EntityId) : Bool :=
  tx.streams.any fun stream => stream.entityId == entityId

def readLoaded (tx : Transaction Op) (loaded : Loaded A) :
    Except Error (Read A Op × Transaction Op) := do
  tx.checkOpen
  refuse (tx.hasRead loaded.entityId) (.invalidCommit ("duplicate read of " ++ loaded.entityId))
  return (⟨tx.id, tx.streams.length, loaded, loaded.sequence, [], none⟩,
    { tx with streams := tx.streams ++
      [⟨loaded.entityId, A.entityType, loaded.sequence, loaded.seenCommandIds, [], none, [],
        .empty⟩] })

def stageDerived (tx : Transaction Op) (read : Read A Op) (staged : Nat)
    (serialized : List SerializedEvent) (events : List A.Event)
    (projectors : List (Projector A Op)) (snapshotInterval : Nat) :
    Except Error (List Op × Option NewSnapshot × Bytes) := do
  let operations ← runProjectors read.loaded.entityId read.loaded.aggregate
    (read.appended ++ events) projectors
  let (snapshot, state) ← deriveStage A tx.commitProjectors snapshotInterval read.loaded
    read.baseSequence (staged + serialized.length) serialized read.loaded.aggregate
  return (operations, snapshot, state)

def notRead (read : Read A Op) : Error :=
  .invalidCommit ("stream " ++ read.loaded.entityId ++ " was not read by this transaction")

def checkStage (tx : Transaction Op) (read : Read A Op) (named : List (Projector A Op)) :
    Except Error Unit := do
  refuse (read.transaction ≠ tx.id) (notRead read)
  tx.checkOpen
  refuse tx.poisoned .transactionPoisoned
  match read.projectors with
  | none => .ok ()
  | some existing =>
    refuse (named ≠ [] ∧ existing.map (·.identity) ≠ named.map (·.identity))
      (.projectorSetConflict read.loaded.entityId)

def restage (tx : Transaction Op) (index : Nat) (stream : StreamState Op)
    (serialized : List SerializedEvent) (operations : List Op) (snapshot : Option NewSnapshot)
    (state : Bytes) : Transaction Op :=
  { tx with
    streams := tx.streams.set index
      { stream with events := stream.events ++ serialized, snapshot, operations, state } }

/-- Stages decided events. A failure after the handle's aggregate changed poisons the transaction.
-/
def stage (tx : Transaction Op) (read : Read A Op) (events : List A.Event)
    (named : List (Projector A Op)) (snapshotInterval : Nat) :
    Except Error Unit × Read A Op × Transaction Op :=
  match tx.checkStage read named with
  | .error error => (.error error, read, tx)
  | .ok () =>
    if events.isEmpty then (.ok (), read, tx)
    else
      match tx.streams[read.index]?,
        serializeEvents A read.loaded.entityId read.loaded.sequence {} events with
      | none, _ => (.error (notRead read), read, tx)
      | some _, .error error => (.error error, read, tx)
      | some stream, .ok serialized =>
        match tx.stageDerived (read.applied events) stream.events.length serialized events
          (read.projectorsOf named) snapshotInterval with
        | .error error => (.error error, read.applied events, { tx with poisoned := true })
        | .ok (operations, snapshot, state) =>
          (.ok (), (read.applied events).appending named events serialized,
            tx.restage read.index stream serialized operations snapshot state)

def appendWith (tx : Transaction Op) (read : Read A Op) (events : List A.Event)
    (projectors : List (Projector A Op)) : Except Error Unit × Read A Op × Transaction Op :=
  tx.stage read events projectors (A.snapshotInterval.getD tx.snapshotInterval)

def fence (tx : Transaction Op) (fence : ReadFence) : Except Error (Transaction Op) := do
  tx.checkOpen
  return if tx.hasRead fence.entityId then tx
    else { tx with fences := tx.fences ++ [{ fence with provenance := .caller }] }

/-- A projector added after events were appended has missed a stream's state. -/
def withCommitProjector (tx : Transaction Op) (projector : CommitProjector) : Transaction Op :=
  { tx with
    lateCommitProjector := tx.lateCommitProjector ||
      tx.streams.any fun stream => !stream.events.isEmpty
    commitProjectors := tx.commitProjectors ++ [projector] }

def engineFence (stream : StreamState Op) : ReadFence :=
  ⟨stream.entityId, stream.entityType, stream.head, .engine⟩

def callerFences (tx : Transaction Op) : List ReadFence :=
  tx.fences.filter fun fence => !tx.hasRead fence.entityId

def checkUnseen (tx : Transaction Op) (commandId : CommandId) : Except Error Unit :=
  refuse (tx.streams.any fun stream => stream.seenCommandIds.contains commandId)
    (.duplicateCommand commandId)

def checkStamped (tx : Transaction Op) (stamped : Metadata) : Except Error Unit :=
  match stamped.commandId.filter (fun id => id ≠ "") with
  | none => .ok ()
  | some commandId => tx.checkUnseen commandId

def written (tx : Transaction Op) : List (StreamState Op) :=
  (tx.streams.filter fun stream => !stream.events.isEmpty).insertionSort
    fun a b => a.entityId ≤ b.entityId

def stampedEvents (stamped : Metadata) (stream : StreamState Op) : List SerializedEvent :=
  stream.events.map fun event => { event with metadata := stamped }

def prepare (tx : Transaction Op) (stamped : Metadata) : Except Error (TransactionCommit Op) := do
  refuse tx.poisoned .transactionPoisoned
  refuse tx.lateCommitProjector (.invalidCommit ("a commit projector was added after events " ++
    "were appended; add projectors first"))
  tx.checkStamped stamped
  let views ← projectApplication tx.commitProjectors ⟨stamped.commitId,
    if tx.commitProjectors.isEmpty then []
    else tx.written.map fun stream =>
      .new stream.entityId stream.entityType (stampedEvents stamped stream) stream.state⟩
  return {
    streams := tx.written.map fun stream =>
      { entityId := stream.entityId
        events := stampedEvents stamped stream
        snapshot := stream.snapshot }
    fences := tx.callerFences ++
      (tx.streams.filter fun stream => stream.events.isEmpty).map engineFence
    operations := (tx.streams.filter fun stream => !stream.events.isEmpty).flatMap (·.operations)
    views }

def rejection (tx : Transaction Op) (commandId : CommandId) :
    Except Error (TransactionCommit Op) := do
  tx.checkOpen
  refuse tx.poisoned .transactionPoisoned
  tx.checkUnseen commandId
  return { streams := [], fences := tx.streams.map engineFence ++ tx.callerFences }

end Transaction

end EventStore.Appends
