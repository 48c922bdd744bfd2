import EventStore.Core.Memory
import EventStore.Lib.Scripts

/-!
The TypeScript package's in-memory repository, and its store's load and staging. Sequences are big
integers, checked against the 64-bit range. Errors are the Rust crate's of the same name; a refused
feature is reported with the first pair. A null payload is the empty one.
-/
namespace EventStore.TypeScript

open Result

def int64Min : Int := -9223372036854775808
def int64Max : Int := 9223372036854775807
def maxSafeInteger : Int := 9007199254740991

def int64Argument (value : Int) (what : String) : Except Error Unit :=
  refuse (value < int64Min ∨ int64Max < value)
    (.invalidArgument (what ++ " is " ++ toString value ++ ", outside int64"))

def safeIntegerArgument (value : Int) (what : String) : Except Error Unit :=
  refuse (value < -maxSafeInteger ∨ maxSafeInteger < value)
    (.invalidArgument (what ++ " is " ++ toString value ++ ", not a safe integer"))

def snapshotEventsDue (current events interval : Int) : Except Error Int := do
  safeIntegerArgument events "events"
  safeIntegerArgument interval "interval"
  if interval ≤ 0 then return 0
  let nextSnapshotAt := interval - (current.tmod interval + interval).tmod interval
  return if events < nextSnapshotAt then 0 else events

def payloadText (payload : Bytes) (what : String) : Except Error String :=
  match String.fromUTF8? payload with
  | some text => .ok text
  | none =>
    .error (.invalidArgument (what ++ " is not valid UTF-8 and cannot be stored as a string"))

/-- Operations a projector adds to a commit; this repository budgets them and writes none. -/
structure ProjectorGroup where
  backend : String
  operations : Nat
  sizes : List Nat

structure Commit where
  entityId : EntityId
  events : List SerializedEvent
  snapshot : Option NewSnapshot := none
  projections : List ProjectorGroup := []
  outcome : Option Outcome := none

structure TransactionCommit where
  streams : List Commit
  fences : List ReadFence := []
  outcome : Option Outcome := none

structure NormalizedTransaction where
  streams : List Commit
  fences : List ReadFence
  projections : List ProjectorGroup
  outcome : Option Outcome

namespace Commit

def checkGroups : List ProjectorGroup → Except Error Unit
  | [] => .ok ()
  | group :: groups =>
    if group.sizes.length ≠ group.operations then
      .error (.invalidCommit ("a " ++ group.backend ++ " projector group has " ++
        toString group.operations ++ " operations but " ++ toString group.sizes.length ++
        " sizes"))
    else checkGroups groups

def operations (c : Commit) : Nat := (c.projections.map (·.operations)).sum

/-- The crate's commit of the same events; checks that the two share are written over it. -/
def toCrate (c : Commit) : EventStore.Commit Empty where
  entityId := c.entityId
  events := c.events
  snapshot := c.snapshot

/-- The sequences continue one another; a big integer has no largest one. -/
def checkContiguous : List SerializedEvent → Except Error Unit
  | a :: b :: events =>
    if b.sequence ≠ a.sequence + 1 then
      .error (.invalidCommit ("event sequence " ++ toString b.sequence ++ " follows " ++
        toString a.sequence ++ "; sequences must be contiguous"))
    else checkContiguous (b :: events)
  | _ => .ok ()

end Commit

def validateCommit (c : Commit) : Except Error Unit := do
  Commit.checkGroups c.projections
  match c.events with
  | [] => refuse (0 < c.operations) (.projectorWithoutEvents c.operations)
  | first :: _ => do
    c.toCrate.checkEntityTypes first
    c.toCrate.checkSnapshot first
    c.toCrate.checkIdentities c.events
    EventStore.Commit.checkFirst first
    Commit.checkContiguous c.events

namespace TransactionCommit

def checkStreams (listed : List EntityId) : List Commit → Except Error Unit
  | [] => .ok ()
  | stream :: streams => do
    validateCommit stream
    checkNotReserved stream.entityId
    refuse (stream.entityId ∈ listed) (.invalidCommit ("duplicate stream " ++ stream.entityId))
    checkStreams (stream.entityId :: listed) streams

def checkFences (fenced : List EntityId) : List ReadFence → Except Error Unit
  | [] => .ok ()
  | fence :: fences => do
    checkNotReserved fence.entityId
    refuse (fence.head < 0 ∨ int64Max ≤ fence.head ∨ fence.entityId ∈ fenced)
      (.invalidCommit ("invalid or duplicate fence " ++ fence.entityId))
    checkFences (fence.entityId :: fenced) fences

def checkSnapshots : List Commit → Except Error Unit
  | [] => .ok ()
  | stream :: streams =>
    if stream.snapshot.isSome && stream.events.isEmpty then
      .error (.invalidCommit ("the snapshot of " ++ stream.entityId ++
        " must cover this commit's last event"))
    else checkSnapshots streams

def written (t : TransactionCommit) : List Commit :=
  t.streams.filter fun stream => !stream.events.isEmpty

end TransactionCommit

def identityTexts (identity : RecordedIdentity) : List (String × String) :=
  ("a command type", identity.commandType) ::
    identity.targets.map (("a target stream ID", ·)) ++
    (identity.principal.map (("a principal", ·))).toList

def checkOutcome (E : Env) (o : Outcome) : Except Error Unit := do
  checkCommandId o.commandId
  refuse (o.digest = "") (.invalidArgument "an outcome needs an identity digest")
  checkText "an identity digest" o.digest
  checkStatus o
  let response := (o.response.map ByteArray.size).getD 0
  refuse (maxOutcomeBytes < response) (.outcomeTooLarge "response" response)
  checkRejection E o.rejection
  match o.identity with
  | none => .ok ()
  | some identity => do
    checkTexts (identityTexts identity)
    refuse (maxOutcomeBytes < identity.size E) (.outcomeTooLarge "identity" (identity.size E))

def normalizeTransaction (E : Env) (t : TransactionCommit) :
    Except Error NormalizedTransaction := do
  TransactionCommit.checkStreams [] t.streams
  TransactionCommit.checkFences [] t.fences
  TransactionCommit.checkSnapshots t.streams
  let streams := (t.written.map fun stream => { stream with projections := [] }).insertionSort
    fun a b => a.entityId ≤ b.entityId
  let fences := (t.fences.filter fun fence =>
    !t.written.any fun stream => stream.entityId == fence.entityId).insertionSort
      fun a b => a.entityId ≤ b.entityId
  let projections := t.written.flatMap (·.projections)
  match t.outcome with
  | none => return ⟨streams, fences, projections, none⟩
  | some outcome => do
    checkOutcome E outcome
    checkCommitText (t.streams.flatMap (·.events))
      (t.streams.filterMap (fun stream => stream.snapshot.map (·.entityType)) ++
        t.fences.map (·.entityType))
      (t.streams.map (·.entityId) ++ t.fences.map (·.entityId))
    return ⟨streams, fences, projections,
      some (outcome.stored (streams.flatMap fun stream => stream.events.map (·.id)))⟩

def isEmptyTransaction (t : NormalizedTransaction) : Bool :=
  t.streams.isEmpty && t.fences.isEmpty && t.outcome.isNone

/-- Without events the snapshot is ignored; an outcome still has its texts checked. -/
def commitAsTransaction (E : Env) (c : Commit) : Except Error NormalizedTransaction := do
  validateCommit c
  checkNotReserved c.entityId
  let normalized ← normalizeTransaction E
    { streams := if c.events.isEmpty then [] else [c], outcome := c.outcome }
  if normalized.outcome.isSome && c.events.isEmpty then
    checkCommitText [] (c.snapshot.map (·.entityType)).toList [c.entityId]
  return normalized

def checkFenceRetention (t : NormalizedTransaction) (retained : EntityType → Bool) :
    Except Error Unit :=
  match t.fences.find? (fun fence => retained fence.entityType) with
  | some fence => .error (.retentionConflict fence.entityType)
  | none => .ok ()

def rankFailures (failures : List Error) : Option Error :=
  ((failures.find? fun failure => Heads.rankKey failure == 0).or
    (failures.find? fun failure => Heads.rankKey failure == 1)).or failures.head?

def eventItemSize (E : Env) (event : SerializedEvent) : Except Error Nat := do
  int64Argument event.sequence "event.sequence"
  safeIntegerArgument event.version "event.version"
  discard (payloadText event.payload "event payload")
  return itemSize (← eventItem E event none)

def snapshotItemSize (snapshot : SerializedSnapshot) (ttl : Option Int) : Except Error Nat := do
  int64Argument snapshot.sequence "snapshot.sequence"
  int64Argument snapshot.eventSequence "snapshot.eventSequence"
  discard (payloadText snapshot.payload "snapshot payload")
  return itemSize (← snapshotItem snapshot ttl)

def streamSizes (E : Env) (c : Commit) : Except Error (List Nat) :=
  match c.events.head?, c.events.getLast? with
  | some first, some last => do
    let events ← c.events.mapM (eventItemSize E)
    let snapshot ← match c.snapshot with
      | none => pure []
      | some snapshot => do
        pure [← snapshotItemSize ⟨snapshot.entityType, c.entityId, snapshot.sequence,
          last.sequence, snapshot.payload⟩ none]
    return (HeadAction.update c.entityId first.sequence last.sequence none).size ::
      events ++ snapshot
  | _, _ => .ok []

def transactionSizes (E : Env) (t : NormalizedTransaction) : Except Error (List Nat) := do
  let streams ← t.streams.mapM (streamSizes E)
  return controlCheckSizes ++ t.projections.flatMap (·.sizes) ++ streams.flatten ++
    (t.fences.map fun fence => (HeadAction.fence fence.entityId fence.head).size) ++
    (← outcomeSizes E t.outcome)

def supportedPairs : List (String × Int) := [(streamHeadsFeature, streamHeadsVersion)]

def checkSupported : Option FeatureManifest → Except Error Unit
  | none => .ok ()
  | some manifest =>
    match manifest.features.toList.find? (fun pair => !supportedPairs.contains pair) with
    | some (name, version) => .error (.unsupportedFeature name version)
    | none => .ok ()

def declaresStreamHeads (manifest : Option FeatureManifest) : Bool :=
  manifest.any (·.declaresStreamHeads)

def checkWritable (manifest : Option FeatureManifest) : Except Error Unit := do
  checkSupported manifest
  refuse (!declaresStreamHeads manifest) .streamHeadsNotMigrated

def withStreamHeads (manifest : Option FeatureManifest) : FeatureManifest :=
  { (manifest.getD .empty).declareStreamHeads with
    version := (manifest.map (·.version)).getD 0 + 1 }

inductive LockRow where
  | held
  | forceReleased
deriving DecidableEq

/-- The state of the rebuild fence's two rows that a commit's lock check reads. -/
structure RebuildRows where
  generation : Int
  lock : Option LockRow
deriving DecidableEq

structure MemRepository where
  streams : OrdMap EntityId Stream
  manifest : Option FeatureManifest
  rebuild : RebuildRows
  outcomes : OrdMap CommandId Outcome

def derivedHead (s : Stream) : Int :=
  (s.events.maxKey?.map (max s.snapshotHead)).getD s.snapshotHead

def checkWrite (c : Commit) (held : Stream) : Option Error :=
  match c.events with
  | [] => none
  | first :: _ =>
    if !held.headPasses first.sequence then
      some (if held.head ≠ derivedHead held then
          Heads.drift c.entityId held.head (derivedHead held)
        else if held.head < first.sequence - 1 then
          .sequenceGap c.entityId held.head first.sequence
        else Heads.conflict c.entityId)
    else if c.events.any fun event => held.events.contains event.sequence then
      some (Heads.drift c.entityId held.head (derivedHead held))
    else
      match c.snapshot with
      | none => none
      | some new =>
        if new.sequence ≠ held.snapshotSequence + 1 then
          some (.conflict c.entityId (snapshotMoved held.snapshotSequence new))
        else none

def checkFence (fence : ReadFence) (held : Stream) : Option Error :=
  if held.head = fence.head then none
  else if held.head ≠ derivedHead held then
    some (Heads.drift fence.entityId held.head (derivedHead held))
  else some (Heads.fenceConflict fence)

def writeStream (held : Stream) (c : Commit) : Stream :=
  match c.events.getLast? with
  | none => held
  | some last =>
    { events := insertEvents held.events c.events
      head := if last.sequence < held.head then held.head else last.sequence
      snapshot := match c.snapshot with
        | none => held.snapshot
        | some new =>
          some ⟨new.entityType, c.entityId, new.sequence, last.sequence, new.payload⟩ }

namespace MemRepository

def new : MemRepository := ⟨∅, none, ⟨0, none⟩, ∅⟩

def held (r : MemRepository) (entityId : EntityId) : Stream :=
  r.streams[entityId]?.getD .absent

def holdsData (r : MemRepository) : Bool := r.streams.toList.any fun entry => entry.2.holdsData

def declareStreamHeads (r : MemRepository) : Except Error MemRepository := do
  refuse r.holdsData .streamHeadsNotMigrated
  return { r with manifest := some (withStreamHeads r.manifest) }

/-- A store without stream heads is declared by its first writer, when it holds no data. -/
def checkManifest (r : MemRepository) : Except Error MemRepository := do
  checkSupported r.manifest
  if declaresStreamHeads r.manifest then return r else r.declareStreamHeads

def checkRebuild (r : MemRepository) : Except Error Unit :=
  refuse (r.rebuild.lock.isSome ∨ r.rebuild.generation % 2 ≠ 0) .rebuildInProgress

def checkOutcomeRow (r : MemRepository) : Option Outcome → Except Error Unit
  | none => .ok ()
  | some outcome =>
    refuse (r.outcomes.contains outcome.commandId) (.outcomeConflict outcome.commandId)

def failures (r : MemRepository) (t : NormalizedTransaction) : List Error :=
  t.streams.filterMap (fun stream => checkWrite stream (r.held stream.entityId)) ++
    t.fences.filterMap fun fence => checkFence fence (r.held fence.entityId)

def checkFailures (r : MemRepository) (t : NormalizedTransaction) : Except Error Unit :=
  match rankFailures (r.failures t) with
  | some failure => .error failure
  | none => .ok ()

def retained (r : MemRepository) (entityType : EntityType) : Bool :=
  r.manifest.any (·.isRetained entityType)

def checkTransaction (r : MemRepository) (t : NormalizedTransaction) : Except Error Unit := do
  checkFenceRetention t r.retained
  r.checkRebuild
  r.checkOutcomeRow t.outcome
  r.checkFailures t

def writeStreams (streams : OrdMap EntityId Stream) (writes : List Commit) :
    OrdMap EntityId Stream :=
  writes.foldl (fun streams c =>
    streams.insert c.entityId (writeStream (streams[c.entityId]?.getD .absent) c)) streams

/-- Writes a transaction; a late refusal may leave a fresh store declared. -/
def write (E : Env) (r : MemRepository) (t : NormalizedTransaction) :
    Except Error Unit × MemRepository :=
  match transactionSizes E t >>= checkBudget with
  | .error error => (.error error, r)
  | .ok () =>
    match r.checkManifest with
    | .error error => (.error error, r)
    | .ok r =>
      match r.checkTransaction t with
      | .error error => (.error error, r)
      | .ok () => (.ok (), { r with
          streams := writeStreams r.streams t.streams
          outcomes := match t.outcome with
            | none => r.outcomes
            | some outcome => r.outcomes.insert outcome.commandId outcome })

def writeNormalized (E : Env) (r : MemRepository) :
    Except Error NormalizedTransaction → Except Error Unit × MemRepository
  | .error error => (.error error, r)
  | .ok t => if isEmptyTransaction t then (.ok (), r) else r.write E t

def commit (E : Env) (r : MemRepository) (c : Commit) : Except Error Unit × MemRepository :=
  r.writeNormalized E (commitAsTransaction E c)

def commitTransaction (E : Env) (r : MemRepository) (t : TransactionCommit) :
    Except Error Unit × MemRepository :=
  r.writeNormalized E (normalizeTransaction E t)

def eventsAfter (r : MemRepository) (entityId : EntityId) (after : Int) :
    Except Error (List SerializedEvent) := do
  int64Argument after "after"
  return ((r.held entityId).events.toList.filter fun entry => after < entry.1).map (·.2)

def events (r : MemRepository) (entityId : EntityId) : Except Error (List SerializedEvent) :=
  r.eventsAfter entityId 0

def snapshot (r : MemRepository) (entityId : EntityId) : Option SerializedSnapshot :=
  (r.held entityId).snapshot

/-- The head must cover the snapshot, and a newer stored one stays. -/
def checkPutSnapshot (r : MemRepository) (snapshot : SerializedSnapshot) : Except Error Bool :=
  let held := r.held snapshot.entityId
  if 0 < snapshot.eventSequence ∧ held.head < snapshot.eventSequence then
    .error (Heads.drift snapshot.entityId held.head
      (max (derivedHead held) snapshot.eventSequence))
  else .ok (!held.snapshot.any fun stored => snapshot.eventSequence < stored.eventSequence)

def putSnapshot (r : MemRepository) (snapshot : SerializedSnapshot) :
    Except Error Bool × MemRepository :=
  match (do
    checkNotReserved snapshot.entityId
    int64Argument snapshot.sequence "snapshot.sequence"
    int64Argument snapshot.eventSequence "snapshot.eventSequence"
    r.checkManifest) with
  | .error error => (.error error, r)
  | .ok r =>
    match r.checkPutSnapshot snapshot with
    | .error error => (.error error, r)
    | .ok false => (.ok false, r)
    | .ok true =>
      let held := { r.held snapshot.entityId with snapshot := some snapshot }
      (.ok true, { r with streams := r.streams.insert snapshot.entityId held })

def checkCompaction (r : MemRepository) (entityId : EntityId) (through : Int) :
    Except Error Stream := do
  checkWritable r.manifest
  match r.streams[entityId]?, r.streams[entityId]?.bind (·.snapshot) with
  | some stream, some snapshot => do
    refuse (snapshot.eventSequence < through)
      (.compactionUncovered entityId through (some snapshot.eventSequence))
    refuse (r.manifest.any (·.isHistoryDependent snapshot.entityType))
      (.historyDependentProjection snapshot.entityType entityId)
    return stream
  | _, _ => .error (.compactionUncovered entityId through none)

def compactBelow (r : MemRepository) (entityId : EntityId) (through : Int) :
    Except Error Nat × MemRepository :=
  match (do checkNotReserved entityId; int64Argument through "through") with
  | .error error => (.error error, r)
  | .ok () =>
    if through < 1 then (.ok 0, r)
    else
      match r.checkCompaction entityId through with
      | .error error => (.error error, r)
      | .ok stream =>
        let kept := stream.events.filter fun sequence _ => through < sequence
        (.ok (stream.events.size - kept.size),
          { r with streams := r.streams.insert entityId { stream with events := kept } })

end MemRepository

structure Upcaster where
  fromVersion : Int
  toVersion : Int
  upcast : Bytes → Except String Bytes

/-- How one event type is stored: its current version, its codec and its upcasters. -/
structure EventDefinition (Event : Type) where
  version : Int
  encode : Event → Except Error Bytes
  decode : Bytes → Except String Event
  upcasters : List Upcaster

/-- What a projector sees of a commit. -/
structure Projection (State : Type) where
  entityType : EntityType
  entityId : EntityId
  state : State
  encodedState : Bytes
  events : List SerializedEvent

structure Aggregate where
  entityType : EntityType
  State : Type
  Event : Type
  typeOf : Event → EventType
  events : EventType → Option (EventDefinition Event)
  encode : State → Except Error Bytes
  decode : Bytes → Except String State
  initial : State
  apply : State → Event → State
  snapshotInterval : Option Int
  projectors : List (Projection State → Option ProjectorGroup)

def encodeEventData (A : Aggregate) (event : A.Event) : Except Error (Int × Bytes) :=
  match A.events (A.typeOf event) with
  | none => .error (.invalidArgument (A.typeOf event ++
      " is not one of the aggregate's event types"))
  | some definition => (definition.encode event).map fun payload => (definition.version, payload)

def upcastPayload (eventType : EventType) :
    List Upcaster → Int → Bytes → Except Error (Int × Bytes)
  | [], version, payload => .ok (version, payload)
  | upcaster :: upcasters, version, payload =>
    if upcaster.fromVersion ≠ version then upcastPayload eventType upcasters version payload
    else
      match upcaster.upcast payload with
      | .error message => .error (.replay eventType version .upcast (.text message))
      | .ok payload => upcastPayload eventType upcasters upcaster.toVersion payload

def replayEvent (A : Aggregate) (stored : SerializedEvent) : Except Error A.Event :=
  match A.events stored.eventType with
  | none =>
    .error (.replay stored.eventType stored.version .deserialize (.text "unknown event type"))
  | some definition => do
    let (version, payload) ← upcastPayload stored.eventType definition.upcasters stored.version
      stored.payload
    if version ≠ definition.version then
      .error (.replay stored.eventType version .deserialize
        (.text ("no upcaster takes it to version " ++ toString definition.version)))
    else
      match definition.decode payload with
      | .error message => .error (.replay stored.eventType version .deserialize (.text message))
      | .ok event => .ok event

structure Loaded (A : Aggregate) where
  entityId : EntityId
  state : A.State
  sequence : Int
  snapshotSequence : Int
  seenCommandIds : List CommandId

namespace Loaded

variable {A : Aggregate}

def start (A : Aggregate) (entityId : EntityId) :
    Option SerializedSnapshot → Except Error (Loaded A)
  | none => .ok ⟨entityId, A.initial, 0, 0, []⟩
  | some snapshot =>
    match A.decode snapshot.payload with
    | .error message => .error (.snapshot entityId message)
    | .ok state => .ok ⟨entityId, state, snapshot.eventSequence, snapshot.sequence, []⟩

def seen (loaded : Loaded A) (commandId : Option CommandId) : List CommandId :=
  match commandId with
  | none => loaded.seenCommandIds
  | some id => if id = "" then loaded.seenCommandIds else id :: loaded.seenCommandIds

def replayAll (loaded : Loaded A) : List SerializedEvent → Except Error (Loaded A)
  | [] => .ok loaded
  | stored :: events => do
    refuse (stored.sequence ≠ loaded.sequence + 1)
      (.sequenceGap loaded.entityId loaded.sequence stored.sequence)
    let event ← replayEvent A stored
    replayAll { loaded with
      state := A.apply loaded.state event
      sequence := stored.sequence
      seenCommandIds := loaded.seen stored.metadata.commandId } events

end Loaded

section Staging

variable (A : Aggregate)

def serializeEvents (entityId : EntityId) (metadata : Metadata) :
    Int → List A.Event → Except Error (List SerializedEvent)
  | _, [] => .ok []
  | after, event :: decided => do
    refuse (int64Max ≤ after)
      (.invalidCommit ("entity " ++ entityId ++ " is at the maximum event sequence"))
    let sequence := after + 1
    let (version, payload) ← encodeEventData A event
    return ⟨EventId.forEvent entityId sequence, sequence, A.typeOf event, version, entityId,
      A.entityType, payload, metadata⟩ :: (← serializeEvents entityId metadata sequence decided)

def snapshotCommitSize (snapshot : SerializedSnapshot) : Except Error Nat :=
  snapshotItemSize snapshot (some int64Max)

variable {A}

def commitSnapshot (interval : Int) (loaded : Loaded A) (appended : Nat) (state : A.State) :
    Except Error (Option NewSnapshot) := do
  if (← snapshotEventsDue loaded.sequence appended interval) = 0 then return none
  let snapshot : NewSnapshot := ⟨A.entityType, loaded.snapshotSequence + 1, ← A.encode state⟩
  let size ← snapshotCommitSize ⟨A.entityType, loaded.entityId, snapshot.sequence,
    loaded.sequence + appended, snapshot.payload⟩
  return if maxCommitItemBytes < size then none else some snapshot

def projectCommit (entityId : EntityId) (state : A.State) (events : List SerializedEvent)
    (snapshot : Option NewSnapshot) : Except Error (List ProjectorGroup) := do
  if A.projectors.isEmpty then return []
  let encodedState ← match snapshot with
    | some snapshot => pure snapshot.payload
    | none => A.encode state
  return A.projectors.filterMap (· ⟨A.entityType, entityId, state, encodedState, events⟩)

/-- The load once the commit succeeds, and the commit. -/
def stage (snapshotInterval : Int) (loaded : Loaded A) (decided : List A.Event)
    (metadata : Metadata) : Except Error (Loaded A × Commit) := do
  let entityId := loaded.entityId
  let events ← serializeEvents A entityId metadata loaded.sequence decided
  let state := decided.foldl A.apply loaded.state
  let snapshot ← commitSnapshot (A.snapshotInterval.getD snapshotInterval) loaded events.length
    state
  let projections ← projectCommit entityId state events snapshot
  return (⟨entityId, state, loaded.sequence + events.length,
    (snapshot.map (·.sequence)).getD loaded.snapshotSequence, loaded.seen metadata.commandId⟩,
    { entityId, events, snapshot, projections })

end Staging

inductive ReadAsk where
  | snapshot (entityId : EntityId)
  | events (entityId : EntityId)
  | eventsAfter (entityId : EntityId) (after : Int)

def ReadAnswer : ReadAsk → Type
  | .snapshot _ => Except Error (Option SerializedSnapshot)
  | .events _ | .eventsAfter _ _ => Except Error (List SerializedEvent)

abbrev LoadProgram (α : Type) := Script ReadAsk ReadAnswer α

namespace LoadProgram

def readSnapshot (entityId : EntityId) : LoadProgram (Except Error (Option SerializedSnapshot)) :=
  Script.ask (ReadAsk.snapshot entityId)

def readEvents (entityId : EntityId) (snapshot : Option SerializedSnapshot) (sequence : Int) :
    LoadProgram (Except Error (List SerializedEvent)) :=
  if snapshot.isSome then Script.ask (ReadAsk.eventsAfter entityId sequence)
  else Script.ask (ReadAsk.events entityId)

/-- One attempt; with no events the snapshot is read again, to rule out a compaction. -/
def loadOnce (A : Aggregate) (entityId : EntityId) : LoadProgram (Except Error (Loaded A)) :=
  (readSnapshot entityId).andThen fun snapshot =>
    Script.check (Loaded.start A entityId snapshot) fun loaded =>
      (readEvents entityId snapshot loaded.sequence).andThen fun events =>
        if events.isEmpty then
          (readSnapshot entityId).andThen fun again =>
            let covered := (again.map (·.eventSequence)).getD 0
            if loaded.sequence < covered then
              .done (.error (.sequenceGap entityId loaded.sequence (covered + 1)))
            else .done (loaded.replayAll events)
        else .done (loaded.replayAll events)

def loadRetrying (A : Aggregate) (entityId : EntityId) :
    Nat → LoadProgram (Except Error (Loaded A))
  | 0 => loadOnce A entityId
  | retries + 1 =>
    (loadOnce A entityId).bind fun
      | .ok loaded => .done (.ok loaded)
      | .error error =>
        if error.isConflict then loadRetrying A entityId retries else .done (.error error)

def loadAttempts : Nat := 3

def load (A : Aggregate) (entityId : EntityId) : LoadProgram (Except Error (Loaded A)) :=
  loadRetrying A entityId (loadAttempts - 1)

end LoadProgram

end EventStore.TypeScript
