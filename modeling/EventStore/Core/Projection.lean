import EventStore.Core.Memory

/-!
Commit-wide projectors: the view of a commit a projector is given, the operations
it emits over it, and the checks on them. A projector is an arbitrary pure
function of the view.
-/
namespace EventStore

open Result

structure CommitStream where
  entityId : EntityId
  entityType : EntityType
  events : List SerializedEvent
  state : Bytes
deriving DecidableEq

def CommitStream.new (entityId : EntityId) (entityType : EntityType)
    (events : List SerializedEvent) (state : Bytes) : CommitStream :=
  ⟨entityId, entityType, events.map fun event => { event with metadata := event.metadata.reread },
    state⟩

structure CommitView where
  commitId : String
  streams : List CommitStream
deriving DecidableEq

namespace CommitView

def eventCount (view : CommitView) : Nat := (view.streams.map (·.events.length)).sum

def engineAllocationKey : String := "evt.journal"

def withoutAllocation (event : SerializedEvent) : SerializedEvent :=
  { event with metadata :=
    { event.metadata with extensions := event.metadata.extensions.erase engineAllocationKey } }

def shown (view : CommitView) (engineMetadata : Bool) : CommitView :=
  if engineMetadata then view
  else
    { view with streams := view.streams.map fun stream =>
      { stream with events := stream.events.map withoutAllocation } }

/-- The states alone without a history, and else the streams of the types it names. -/
def visibleTo (view : CommitView) (history : List EntityType) (engineMetadata : Bool) :
    CommitView :=
  let view := view.shown engineMetadata
  if history.isEmpty then
    ⟨"", view.streams.map fun stream => { stream with events := [] }⟩
  else
    { view with streams := view.streams.map fun stream =>
      if history.contains stream.entityType then stream
      else { stream with events := [], state := .empty } }

end CommitView

structure CommitProjector where
  name : String
  history : List EntityType
  engineMetadata : Bool
  project : CommitView → Except String (List ViewOperation)

def invalidView (view : ProjectedView) (reason : String) : Error :=
  .invalidViewOperation ("projector " ++ debug view.projector ++ " (#" ++
    toString view.projectorIndex ++ ") operation " ++ toString view.operation ++ ": " ++ reason)

def checkOwner (view : ProjectedView) (commit : CommitView) (history : List EntityType) :
    Except Error Unit :=
  match commit.streams.find? (fun stream => stream.entityId == view.op.owner) with
  | none =>
    .error (invalidView view ("the owner stream EntityId(" ++ debug view.op.owner ++
      ") was not written by this commit"))
  | some stream =>
    refuse (history ≠ [] ∧ stream.entityType ∉ history)
      (invalidView view ("the owner stream EntityId(" ++ debug view.op.owner ++
        ") is of type " ++ debug stream.entityType ++
        ", which the projector does not declare in its history"))

def reservedViewPrefixes : List String := ["journal#", "journal-counter#", "journal-compaction#"]

def checkUnreserved (view : ProjectedView) : Except Error Unit :=
  refuse (reservedViewPrefixes.any fun reserved => startsWith view.op.pk reserved)
    (.reservedViewKey view.op.pk view.projector view.operation)

def checkEmitted (projector : CommitProjector) (commit : CommitView) :
    List ProjectedView → Except Error Unit
  | [] => .ok ()
  | view :: views => do
    checkOwner view commit projector.history
    if projector.engineMetadata then checkEmitted projector commit views
    else do
      checkUnreserved view
      checkEmitted projector commit views

def emitted (projector : CommitProjector) (index : Nat) (ops : List ViewOperation) :
    List ProjectedView :=
  ops.zipIdx.map fun (op, operation) => ⟨projector.name, index, operation, op⟩

def projectOne (commit : CommitView) (projector : CommitProjector) (index : Nat) :
    Except Error (List ProjectedView) :=
  match projector.project (commit.visibleTo projector.history projector.engineMetadata) with
  | .error source =>
    .error (.projector (.text ("commit projector " ++ debug projector.name ++ ": " ++ source)))
  | .ok ops => do
    checkEmitted projector commit (emitted projector index ops)
    return emitted projector index ops

def projectEach (commit : CommitView) :
    List (CommitProjector × Nat) → Except Error (List ProjectedView)
  | [] => .ok []
  | (projector, index) :: projectors => do
    let views ← projectOne commit projector index
    return views ++ (← projectEach commit projectors)

def projectWith (projectors : List (CommitProjector × Nat)) (commit : CommitView) :
    Except Error (List ProjectedView) := do
  let views ← projectEach commit projectors
  checkViews views
  return views

/-- A view without events runs no projector. -/
def projectCommit (projectors : List CommitProjector) (commit : CommitView) :
    Except Error (List ProjectedView) :=
  if projectors.isEmpty || commit.eventCount == 0 then .ok []
  else projectWith projectors.zipIdx commit

def projectApplication (projectors : List CommitProjector) (commit : CommitView) :
    Except Error (List ProjectedView) :=
  match projectors.find? (·.engineMetadata) with
  | some projector =>
    .error (.invalidConfig ("commit-wide projector " ++ debug projector.name ++
      " reads engine metadata (the journal's); journal commits with a \x60JournalRepository\x60"))
  | none => projectCommit projectors commit

end EventStore
