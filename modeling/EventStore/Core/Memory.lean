import EventStore.Core.Heads

/-!
The in-memory repository: its stores, a handle with the marker it validated, and the operations of
the storage contract. A call that fails may still have cached a marker or declared stream heads on
a fresh store, and nothing else.
-/
namespace EventStore

open Result

abbrev ViewKey := String × String

instance : Ord ViewKey := lexOrd

structure Stream where
  events : OrdMap Int SerializedEvent
  snapshot : Option SerializedSnapshot
  head : Int
deriving DecidableEq

namespace Stream

def absent : Stream := ⟨∅, none, 0⟩

def entityType (s : Stream) : Option EntityType :=
  (s.events.toList.head?.map fun entry => entry.2.entityType).or
    (s.snapshot.map (·.entityType))

def lastEvent (s : Stream) : Int := s.events.maxKey?.getD 0

def snapshotHead (s : Stream) : Int := (s.snapshot.map (·.eventSequence)).getD 0

def derivedHead (s : Stream) : Int := max s.lastEvent s.snapshotHead

def holdsData (s : Stream) : Bool := !s.events.isEmpty || s.snapshot.isSome

def probe (s : Stream) (entityId : EntityId) (healthy : Int → Error) : Error :=
  let verdict := match Probe.first s.head s.derivedHead with
    | .ahead => Probe.afterRederive s.head s.derivedHead
    | other => other
  if verdict = .settled ∧ s.head = s.derivedHead then healthy s.head
  else Heads.drift entityId s.head s.derivedHead

theorem probe_eq (s : Stream) (entityId : EntityId) (healthy : Int → Error) :
    s.probe entityId healthy =
      if s.head = s.derivedHead then healthy s.head
      else Heads.drift entityId s.head s.derivedHead := by
  by_cases h : s.head = s.derivedHead
  · simp [probe, Probe.first, h]
  · simp [probe, h]

/-- A create needs no head item, an append the sequence before the commit's first. -/
def headPasses (s : Stream) (first : Int) : Bool :=
  if first ≤ 1 then s.head == 0 else s.head == first - 1

def eventsPass (s : Stream) (events : List SerializedEvent) : Bool :=
  events.all fun event => !s.events.contains event.sequence

def snapshotSequence (s : Stream) : Int := (s.snapshot.map (·.sequence)).getD 0

end Stream

structure Stores where
  streams : OrdMap EntityId Stream
  views : OrdMap ViewKey ViewRow
  outcomes : OrdMap CommandId Outcome
  manifest : Option FeatureManifest
  rebuild : RebuildState

namespace Stores

def empty : Stores := ⟨∅, ∅, ∅, none, .empty⟩

def held (s : Stores) (entityId : EntityId) : Stream := s.streams[entityId]?.getD .absent

def setStream (s : Stores) (entityId : EntityId) (stream : Stream) : Stores :=
  { s with streams := s.streams.insert entityId stream }

def holdsData (s : Stores) : Bool := s.streams.toList.any fun entry => entry.2.holdsData

end Stores

structure MemRepository where
  stores : Stores
  validated : CachedMarker
  journaling : Bool

namespace MemRepository

def new : MemRepository := ⟨.empty, none, false⟩

/-- Validates the manifest unless its version is cached; an empty store is declared. -/
def checkManifest (E : Env) (r : MemRepository) : Except Error Unit × MemRepository :=
  if markerMatches r.validated r.stores.manifest then (.ok (), r)
  else
    match validateMarkerForWrite E r.journaling r.stores.manifest with
    | .ok marker => (.ok (), { r with validated := some marker })
    | .error .streamHeadsNotMigrated =>
      if r.stores.holdsData then (.error .streamHeadsNotMigrated, r)
      else
        let next := declaredManifest r.stores.manifest
        (.ok (), { r with
          stores := { r.stores with manifest := some next }
          validated := some (.version next.version) })
    | .error error => (.error error, r)

end MemRepository

variable {Op : Type}

def snapshotMoved (stored : Int) (new : NewSnapshot) : String :=
  "snapshot sequence moved: stored " ++ toString stored ++ ", commit writes " ++
    toString new.sequence

def streamFailure (held : Stream) (c : Commit Op) : Option Error :=
  match c.events with
  | [] => none
  | first :: _ =>
    if !held.headPasses first.sequence then
      some (held.probe c.entityId (Heads.gapOrConflict c.entityId first.sequence))
    else if !held.eventsPass c.events then
      -- The head update passed, so the stored event sits above the head.
      some (Heads.drift c.entityId held.head held.derivedHead)
    else
      match c.snapshot with
      | none => none
      | some new =>
        if EventSequence.next held.snapshotSequence ≠ new.sequence then
          some (.conflict c.entityId (snapshotMoved held.snapshotSequence new))
        else none

def writes (streams : List (Commit Op)) (entityId : EntityId) : Bool :=
  streams.any fun stream => !stream.events.isEmpty && stream.entityId == entityId

def fenceFailure (held : Stream) (fence : ReadFence) : Option Error :=
  if held.head ≠ fence.head then
    some (held.probe fence.entityId fun _ => Heads.fenceConflict fence)
  else none

def failures (s : Stores) (streams : List (Commit Op)) (fences : List ReadFence) : List Error :=
  streams.filterMap (fun stream => streamFailure (s.held stream.entityId) stream) ++
    fences.filterMap fun fence =>
      if writes streams fence.entityId then none
      else fenceFailure (s.held fence.entityId) fence

def viewHolds (stored : Option ViewRow) (op : ViewOperation) : Bool :=
  let owned := stored.all fun row => row.entityId == op.owner
  (match op.condition with
    | .none => owned
    | .absent => stored.isNone
    | .present => stored.isSome && owned) &&
  op.expectedPayload.all fun expected =>
    stored.any fun row => owned && row.payload == expected

def checkViewConditions (rows : OrdMap ViewKey ViewRow) (views : List ProjectedView) :
    Except Error Unit :=
  match views.find? (fun view => !viewHolds rows[view.op.key]? view.op) with
  | some view => .error (.projectorOperation (.conditionFailed view))
  | none => .ok ()

def applyView (rows : OrdMap ViewKey ViewRow) (view : ProjectedView) : OrdMap ViewKey ViewRow :=
  match view.op.kind with
  | .put => rows.insert view.op.key (.of view.op)
  | .delete => rows.erase view.op.key

def applyViews (rows : OrdMap ViewKey ViewRow) (views : List ProjectedView) :
    OrdMap ViewKey ViewRow :=
  views.foldl applyView rows

def insertEvents (stored : OrdMap Int SerializedEvent) (events : List SerializedEvent) :
    OrdMap Int SerializedEvent :=
  Consecutive.store SerializedEvent.sequence stored events

def applyStream (held : Stream) (c : Commit Op) : Stream :=
  match c.events.getLast? with
  | none => held
  | some last =>
    { events := insertEvents held.events c.events
      head := max held.head last.sequence
      snapshot := match c.snapshot with
        | none => held.snapshot
        | some new =>
          some ⟨new.entityType, c.entityId, new.sequence, last.sequence, new.payload⟩ }

def applyStreams (stored : OrdMap EntityId Stream) (streams : List (Commit Op)) :
    OrdMap EntityId Stream :=
  streams.foldl (fun stored c =>
    if c.events.isEmpty then stored
    else stored.insert c.entityId (applyStream (stored[c.entityId]?.getD .absent) c)) stored

def checkRebuild (s : Stores) : Except Error Unit :=
  refuse (s.rebuild.lock.isSome ∨ !s.rebuild.generation.isSettled) .rebuildInProgress

def checkOutcomeRow (s : Stores) : Option Outcome → Except Error Unit
  | none => .ok ()
  | some outcome =>
    refuse (s.outcomes.contains outcome.commandId) (.outcomeConflict outcome.commandId)

def checkRanked (s : Stores) (streams : List (Commit Op)) (fences : List ReadFence) :
    Except Error Unit :=
  match Heads.rank (failures s streams fences) with
  | some error => .error error
  | none => .ok ()

def checkWrite (s : Stores) (streams : List (Commit Op)) (fences : List ReadFence)
    (views : List ProjectedView) (outcome : Option Outcome)
    (checkRetention : Option FeatureManifest → Except Error Unit) : Except Error Unit := do
  checkRetention s.manifest
  checkRebuild s
  checkOutcomeRow s outcome
  checkRanked s streams fences
  checkViewConditions s.views views

def applyWrite (s : Stores) (streams : List (Commit Op)) (views : List ProjectedView)
    (outcome : Option Outcome) : Stores :=
  { s with
    streams := applyStreams s.streams streams
    views := applyViews s.views views
    outcomes := match outcome with
      | none => s.outcomes
      | some outcome => s.outcomes.insert outcome.commandId outcome }

namespace MemRepository

def write (E : Env) (r : MemRepository) (streams : List (Commit Op)) (fences : List ReadFence)
    (views : List ProjectedView) (outcome : Option Outcome)
    (checkRetention : Option FeatureManifest → Except Error Unit) :
    Except Error Unit × MemRepository :=
  match r.checkManifest E with
  | (.error error, r) => (.error error, r)
  | (.ok (), r) =>
    match checkWrite r.stores streams fences views outcome checkRetention with
    | .error error => (.error error, r)
    | .ok () => (.ok (), { r with stores := applyWrite r.stores streams views outcome })

def checkCommit (E : Env) (c : Commit Op) : Except Error Unit := do
  c.validate E
  checkNotReserved c.entityId

def budget (E : Env) (c : Commit Op) : Except Error Unit := do
  checkBudget ((← c.sizes E fun _ => none) ++ c.viewSizes)

def commit (E : Env) (r : MemRepository) (c : Commit Empty) : Except Error Unit × MemRepository :=
  match checkCommit E c with
  | .error error => (.error error, r)
  | .ok () =>
    if c.events.isEmpty && c.outcome.isNone then (.ok (), r)
    else
      match budget E c with
      | .error error => (.error error, r)
      | .ok () => r.write E [c] [] c.views c.storedOutcome fun _ => .ok ()

def transactionBudget (E : Env) (t : TransactionCommit Op) : Except Error Unit := do
  checkBudget ((← t.sizes E fun _ => none) ++ t.viewSizes)

def commitTransaction (E : Env) (r : MemRepository) (t : TransactionCommit Empty) :
    Except Error Unit × MemRepository :=
  match t.normalize E with
  | .error error => (.error error, r)
  | .ok t =>
    if t.isEmpty then (.ok (), r)
    else
      match transactionBudget E t with
      | .error error => (.error error, r)
      | .ok () =>
        r.write E t.streams t.fences t.views t.storedOutcome fun manifest =>
          t.checkRetention manifest fun _ => false

end MemRepository

namespace Stores

def outcome (s : Stores) (commandId : CommandId) : Except Error (Option Outcome) := do
  checkCommandId commandId
  return s.outcomes[commandId]?

def eventsAfter (s : Stores) (entityId : EntityId) (after : Int) : List SerializedEvent :=
  ((s.held entityId).events.toList.filter fun entry => after < entry.1).map (·.2)

def snapshot (s : Stores) (entityId : EntityId) : Option SerializedSnapshot :=
  (s.held entityId).snapshot

end Stores

namespace MemRepository

def checkPutSnapshot (s : Stores) (snapshot : SerializedSnapshot) : Except Error Bool :=
  let held := s.held snapshot.entityId
  if 0 < snapshot.eventSequence ∧ held.head < snapshot.eventSequence then
    .error (Heads.drift snapshot.entityId held.head
      (max held.derivedHead snapshot.eventSequence))
  else .ok (!held.snapshot.any fun existing => snapshot.eventSequence < existing.eventSequence)

def putSnapshot (E : Env) (r : MemRepository) (snapshot : SerializedSnapshot) :
    Except Error Bool × MemRepository :=
  match checkNotReserved snapshot.entityId with
  | .error error => (.error error, r)
  | .ok () =>
    match r.checkManifest E with
    | (.error error, r) => (.error error, r)
    | (.ok (), r) =>
      match checkPutSnapshot r.stores snapshot with
      | .error error => (.error error, r)
      | .ok false => (.ok false, r)
      | .ok true =>
        let held := { r.stores.held snapshot.entityId with snapshot := some snapshot }
        (.ok true, { r with stores := r.stores.setStream snapshot.entityId held })

def checkHistory (manifest : Option FeatureManifest) (entityId : EntityId) (stream : Stream) :
    Except Error Unit :=
  match manifest, stream.entityType with
  | some manifest, some entityType =>
    refuse (manifest.isHistoryDependent entityType)
      (.historyDependentProjection entityType entityId)
  | _, _ => .ok ()

def checkCovered (entityId : EntityId) (through : Int) (stream : Stream) : Except Error Unit :=
  let covered := stream.snapshot.map (·.eventSequence)
  refuse (covered.all (· < through)) (.compactionUncovered entityId through covered)

def checkCompaction (E : Env) (r : MemRepository) (entityId : EntityId) (through : Int) :
    Except Error Stream := do
  discard (validateMarkerForWrite E r.journaling r.stores.manifest)
  match r.stores.streams[entityId]? with
  | none => .error (.compactionUncovered entityId through none)
  | some stream => do
    checkCovered entityId through stream
    checkHistory r.stores.manifest entityId stream
    return stream

def compactBelow (E : Env) (r : MemRepository) (entityId : EntityId) (through : Int) :
    Except Error Nat × MemRepository :=
  match checkNotReserved entityId with
  | .error error => (.error error, r)
  | .ok () =>
    if through < 1 then (.ok 0, r)
    else
      match r.checkCompaction E entityId through with
      | .error error => (.error error, r)
      | .ok stream =>
        let kept := stream.events.filter fun sequence _ => through < sequence
        (.ok (stream.events.size - kept.size),
          { r with stores := r.stores.setStream entityId { stream with events := kept } })

def updateManifest (r : MemRepository) (change : FeatureManifest → FeatureManifest) :
    MemRepository :=
  { r with
    stores := { r.stores with
      manifest := some { change (r.stores.manifest.getD .empty) with
        version := (r.stores.manifest.map fun manifest => manifest.version + 1).getD 1 } }
    validated := none }

def checkInitialized (E : Env) : Option FeatureManifest → Except Error Bool
  | none => .ok false
  | some manifest => do
    manifest.validateSupported E
    return manifest.declaresStreamHeads

def initializeStore (E : Env) (r : MemRepository) : Except Error Bool × MemRepository :=
  match checkInitialized E r.stores.manifest with
  | .error error => (.error error, r)
  | .ok true => (.ok false, r)
  | .ok false =>
    if r.stores.holdsData then (.error .streamHeadsNotMigrated, r)
    else (.ok true, { r with
      stores := { r.stores with manifest := some (declaredManifest r.stores.manifest) }
      validated := none })

def acceptJournal (r : MemRepository) : MemRepository := { r with journaling := true }

end MemRepository

end EventStore
