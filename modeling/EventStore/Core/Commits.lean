import EventStore.Core.Wire

/-!
Commits: one stream's events with their snapshot, view operations and outcome,
and the multi-stream commit with read fences. Validation and normalization run
before any storage is read, and so does the budget check.
-/
namespace EventStore

open Result

structure NewSnapshot where
  entityType : EntityType
  sequence : Int
  payload : Bytes
deriving DecidableEq

structure Commit (Op : Type) where
  entityId : EntityId
  events : List SerializedEvent
  snapshot : Option NewSnapshot := none
  operations : List Op := []
  views : List ProjectedView := []
  outcome : Option Outcome := none

structure ReadFence where
  entityId : EntityId
  entityType : EntityType
  head : Int
  provenance : FenceProvenance
deriving DecidableEq

structure TransactionCommit (Op : Type) where
  streams : List (Commit Op)
  fences : List ReadFence := []
  operations : List Op := []
  views : List ProjectedView := []
  outcome : Option Outcome := none

variable {Op : Type}

namespace Commit

def storedOutcome (c : Commit Op) : Option Outcome :=
  c.outcome.map fun outcome => outcome.stored (c.events.map (·.id))

def viewSizes (c : Commit Op) : List Nat := c.views.map (viewOperationSize ·.op)

def checkEntityTypes (c : Commit Op) (first : SerializedEvent) : Except Error Unit :=
  match c.events.find? (fun event => event.entityType ≠ first.entityType) with
  | some event =>
    .error (.invalidCommit ("event " ++ event.id ++ " has entity type " ++ event.entityType ++
      ", but the commit's first event has " ++ first.entityType))
  | none => .ok ()

def checkSnapshot (c : Commit Op) (first : SerializedEvent) : Except Error Unit :=
  match c.snapshot with
  | none => .ok ()
  | some snapshot =>
    if snapshot.entityType ≠ first.entityType then
      .error (.invalidCommit ("the snapshot has entity type " ++ snapshot.entityType ++
        ", but the events have " ++ first.entityType))
    else if snapshot.sequence < 1 then
      .error (.invalidCommit ("snapshot sequence " ++ toString snapshot.sequence ++
        " is below 1; snapshot sequences start at 1"))
    else .ok ()

def checkIdentities (c : Commit Op) : List SerializedEvent → Except Error Unit
  | [] => .ok ()
  | event :: events =>
    if event.entityId ≠ c.entityId then
      .error (.invalidCommit ("event " ++ event.id ++ " belongs to entity " ++
        event.entityId ++ ", not " ++ c.entityId))
    else if event.id ≠ EventId.forEvent event.entityId event.sequence then
      .error (.invalidCommit ("event " ++ event.id ++ " should have the ID " ++
        EventId.forEvent event.entityId event.sequence))
    else c.checkIdentities events

def checkFirst (first : SerializedEvent) : Except Error Unit :=
  refuse (first.sequence < 1) (.invalidCommit ("event sequence " ++
    toString first.sequence ++ " is below 1; sequences start at 1"))

def checkContiguous : List SerializedEvent → Except Error Unit
  | a :: b :: events =>
    if EventSequence.checkedNext a.sequence ≠ some b.sequence then
      .error (.invalidCommit ("event sequence " ++ toString b.sequence ++ " follows " ++
        toString a.sequence ++ "; sequences must be contiguous"))
    else checkContiguous (b :: events)
  | _ => .ok ()

def checkEvents (c : Commit Op) : Except Error Unit :=
  match c.events with
  | [] =>
    if c.operations.isEmpty && c.views.isEmpty then .ok ()
    else .error (.projectorWithoutEvents (c.operations.length + c.views.length))
  | first :: _ => do
    c.checkEntityTypes first
    c.checkSnapshot first
    c.checkIdentities c.events
    checkFirst first
    checkContiguous c.events
    checkViews c.views

def checkOutcomeText (E : Env) (c : Commit Op) : Except Error Unit :=
  match c.outcome with
  | none => .ok ()
  | some outcome => do
    checkOutcome E outcome
    checkCommitText c.events (c.snapshot.map (·.entityType)).toList [c.entityId]

def validate (E : Env) (c : Commit Op) : Except Error Unit := do
  c.checkOutcomeText E
  c.checkEvents

end Commit

def streamSizes (E : Env) (ttl : EntityType → Option Int) (c : Commit Op) :
    Except Error (List Nat) :=
  match c.events.head?, c.events.getLast? with
  | some first, some last => do
    let events ← c.events.mapM fun event => do
      return itemSize (← eventItem E event (ttl event.entityType))
    let snapshot ← match c.snapshot with
      | none => pure []
      | some snapshot => do
        let item ← snapshotItem ⟨snapshot.entityType, c.entityId, snapshot.sequence,
          last.sequence, snapshot.payload⟩ (ttl snapshot.entityType)
        pure [itemSize item]
    return (HeadAction.update c.entityId first.sequence last.sequence
      (ttl first.entityType)).size :: events ++ snapshot
  | _, _ => .ok []

def controlCheckSizes : List Nat := [markerCheckSize, lockCheckSize]

def outcomeSizes (E : Env) : Option Outcome → Except Error (List Nat)
  | none => .ok []
  | some outcome => do return [itemSize (← outcomeItem E outcome)]

def Commit.sizes (E : Env) (ttl : EntityType → Option Int) (c : Commit Op) :
    Except Error (List Nat) := do
  return controlCheckSizes ++ (← streamSizes E ttl c) ++ (← outcomeSizes E c.storedOutcome)

def maxCommitBytes : Nat := 3800000
def maxCommitItemBytes : Nat := 380000

def checkBudget (sizes : List Nat) : Except Error Unit :=
  let actions := sizes.length
  let bytes := sizes.sum
  let largestItem := sizes.foldl max 0
  refuse (100 < actions ∨ maxCommitBytes < bytes ∨ maxCommitItemBytes < largestItem)
    (.commitTooLarge actions bytes largestItem)

def snapshotCommitSize (snapshot : SerializedSnapshot) : Except Error Nat := do
  return itemSize (← snapshotItem snapshot (some maxSequence))

def snapshotFits (snapshot : SerializedSnapshot) : Except Error Bool := do
  return decide ((← snapshotCommitSize snapshot) ≤ maxCommitItemBytes)

def NewSnapshot.withinBudget (snapshot : NewSnapshot) (entityId : EntityId)
    (eventSequence : Int) : Except Error (Option NewSnapshot) := do
  let fits ← snapshotFits ⟨snapshot.entityType, entityId, snapshot.sequence, eventSequence,
    snapshot.payload⟩
  return if fits then some snapshot else none

namespace TransactionCommit

def storedOutcome (t : TransactionCommit Op) : Option Outcome :=
  t.outcome.map fun outcome =>
    outcome.stored (t.streams.flatMap fun stream => stream.events.map (·.id))

def viewSizes (t : TransactionCommit Op) : List Nat := t.views.map (viewOperationSize ·.op)

def checkOutcomeText (E : Env) (t : TransactionCommit Op) : Except Error Unit :=
  match t.outcome with
  | none => .ok ()
  | some outcome => do
    checkOutcome E outcome
    checkCommitText (t.streams.flatMap (·.events))
      (t.fences.map (·.entityType) ++
        t.streams.filterMap fun stream => stream.snapshot.map (·.entityType))
      (t.fences.map (·.entityId) ++ t.streams.map (·.entityId))

def checkStreams (E : Env) (seen : List EntityId) : List (Commit Op) → Except Error Unit
  | [] => .ok ()
  | stream :: streams => do
    stream.validate E
    checkNotReserved stream.entityId
    refuse (stream.entityId ∈ seen) (.invalidCommit ("duplicate stream " ++ stream.entityId))
    checkStreams E (stream.entityId :: seen) streams

def checkFences (seen : List EntityId) : List ReadFence → Except Error Unit
  | [] => .ok ()
  | fence :: fences => do
    checkNotReserved fence.entityId
    refuse (fence.head < 0 ∨ (EventSequence.checkedNext fence.head).isNone ∨
        fence.entityId ∈ seen)
      (.invalidCommit ("invalid or duplicate fence " ++ fence.entityId))
    checkFences (fence.entityId :: seen) fences

def checkSnapshots : List (Commit Op) → Except Error Unit
  | [] => .ok ()
  | stream :: streams =>
    if stream.snapshot.isSome && stream.events.isEmpty then
      .error (.invalidCommit ("snapshot for " ++ stream.entityId ++
        " must cover this commit's last event"))
    else checkSnapshots streams

def carried (t : TransactionCommit Op) : Nat :=
  t.operations.length + t.views.length +
    (t.streams.map fun stream => stream.operations.length + stream.views.length).sum

def checkCarried (t : TransactionCommit Op) : Except Error Unit :=
  refuse (0 < t.carried ∧ t.streams.all (·.events.isEmpty)) (.projectorWithoutEvents t.carried)

def written (t : TransactionCommit Op) : List (Commit Op) :=
  t.streams.filter fun stream => !stream.events.isEmpty

/-- Operations move to the commit, streams and fences are sorted, written streams lose their fences.
-/
def normalized (t : TransactionCommit Op) : TransactionCommit Op :=
  { streams := (t.written.map fun stream => { stream with operations := [], views := [] }
      ).insertionSort fun a b => a.entityId ≤ b.entityId
    fences := (t.fences.insertionSort fun a b => a.entityId ≤ b.entityId).filter
      fun fence => !t.written.any fun stream => stream.entityId == fence.entityId
    operations := t.written.flatMap (·.operations) ++ t.operations
    views := t.written.flatMap (·.views) ++ t.views
    outcome := t.outcome }

def normalize (E : Env) (t : TransactionCommit Op) : Except Error (TransactionCommit Op) := do
  t.checkOutcomeText E
  checkStreams E [] t.streams
  checkFences [] t.fences
  checkSnapshots t.streams
  t.checkCarried
  checkViews t.normalized.views
  return t.normalized

def readOnlyFences (t : TransactionCommit Op) : List ReadFence :=
  t.fences.filter fun fence => !t.streams.any fun stream => stream.entityId == fence.entityId

def checkRetention (t : TransactionCommit Op) (manifest : Option FeatureManifest)
    (locallyRetained : EntityType → Bool) : Except Error Unit :=
  match t.fences.find? (fun fence =>
      manifest.any (·.isRetained fence.entityType) || locallyRetained fence.entityType) with
  | some fence => .error (.retentionConflict fence.entityType)
  | none => .ok ()

def isEmpty (t : TransactionCommit Op) : Bool :=
  t.streams.isEmpty && t.fences.isEmpty && t.operations.isEmpty && t.views.isEmpty &&
    t.outcome.isNone

def sizes (E : Env) (ttl : EntityType → Option Int) (t : TransactionCommit Op) :
    Except Error (List Nat) := do
  let streams ← t.streams.mapM (streamSizes E ttl)
  return controlCheckSizes ++ streams.flatten ++
    (t.readOnlyFences.map fun fence => (HeadAction.fence fence.entityId fence.head).size) ++
    (← outcomeSizes E t.storedOutcome)

end TransactionCommit

end EventStore
