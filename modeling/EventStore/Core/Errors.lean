import EventStore.Core.Records

/-!
Outcome rows, view operations and the store's error type. An error carries the
fields of the source's variant; a boxed source error is its text, except that a
transaction conflict stays recognisable because recovery looks for it.
-/
namespace EventStore

inductive Json where
  | null
  | bool (value : Bool)
  | number (text : String)
  | string (text : String)
  | array (items : List Json)
  | object (fields : List (String × Json))

structure Rejection where
  code : String
  message : String
  details : Option Json := none

namespace Rejection

def staleFenceCode : String := "stale-fence"
def staleVersionCode : String := "stale-version"

def staleFence : Rejection :=
  ⟨staleFenceCode, "a caller-stamped fence went stale", none⟩

def retriesExhausted (attempts : Nat) : Rejection :=
  ⟨staleFenceCode,
    "the state this command was decided on kept changing; retries were exhausted",
    some (.object [("attempts", .number (toString attempts))])⟩

end Rejection

inductive OutcomeStatus where
  | accepted
  | rejected
deriving DecidableEq

structure RecordedIdentity where
  commandType : String
  targets : List EntityId
  principal : Option PrincipalId
deriving DecidableEq

structure Outcome where
  commandId : CommandId
  status : OutcomeStatus
  digest : String
  response : Option Bytes := none
  eventIds : List EventId := []
  rejection : Option Rejection := none
  identity : Option RecordedIdentity := none

namespace Outcome

def accepted (commandId : CommandId) (digest : String) : Outcome :=
  { commandId, status := .accepted, digest }

def rejected (commandId : CommandId) (digest : String) (rejection : Rejection) : Outcome :=
  { commandId, status := .rejected, digest, rejection := some rejection }

def withIdentity (o : Outcome) (identity : RecordedIdentity) : Outcome :=
  { o with identity := some identity }

def withResponse (o : Outcome) (response : Bytes) : Outcome :=
  { o with response := if response.isEmpty then none else some response }

def stored (o : Outcome) (eventIds : List EventId) : Outcome :=
  { o with response := o.response.filter (fun r => !r.isEmpty), eventIds }

@[simp] theorem stored_commandId (o : Outcome) (ids : List EventId) :
    (o.stored ids).commandId = o.commandId := rfl

end Outcome

inductive ViewOperationKind where
  | put
  | delete
deriving DecidableEq

inductive ViewCondition where
  | none
  | absent
  | present
deriving DecidableEq

/-- A put or delete of one view row; `conflict` is the text of the mapped error. -/
structure ViewOperation where
  kind : ViewOperationKind
  pk : String
  sk : String
  owner : EntityId
  entityType : String
  payload : Bytes
  condition : ViewCondition
  conflict : Option String
  expectedPayload : Option Bytes
deriving DecidableEq

namespace ViewOperation

def put (pk sk : String) (owner : EntityId) (entityType : String) (payload : Bytes) :
    ViewOperation :=
  ⟨.put, pk, sk, owner, entityType, payload, .none, none, none⟩

def key (op : ViewOperation) : String × String := (op.pk, op.sk)

end ViewOperation

structure ViewRow where
  pk : String
  sk : String
  entityId : String
  entityType : String
  payload : Bytes
  ttl : Int
deriving DecidableEq

def ViewRow.of (op : ViewOperation) : ViewRow :=
  ⟨op.pk, op.sk, op.owner, op.entityType, op.payload, 0⟩

structure ProjectedView where
  projector : String
  projectorIndex : Nat
  operation : Nat
  op : ViewOperation
deriving DecidableEq

def reasonConditionFailed : String := "ConditionalCheckFailed"

structure ProjectorOperationError where
  projector : String
  projectorIndex : Nat
  operation : Nat
  kind : ViewOperationKind
  pk : String
  sk : String
  reason : String
  mapped : Option String
  cause : Option String
deriving DecidableEq

namespace ProjectorOperationError

def forView (view : ProjectedView) (reason : String) (cause : Option String) :
    ProjectorOperationError :=
  { projector := view.projector
    projectorIndex := view.projectorIndex
    operation := view.operation
    kind := view.op.kind
    pk := view.op.pk
    sk := view.op.sk
    reason
    mapped := if reason = reasonConditionFailed then view.op.conflict else none
    cause }

def conditionFailed (view : ProjectedView) : ProjectorOperationError :=
  forView view reasonConditionFailed none

end ProjectorOperationError

inductive FenceProvenance where
  | engine
  | caller
deriving DecidableEq

inductive ReplayPhase where
  | upcast
  | deserialize
deriving DecidableEq

inductive BoxError where
  | text (message : String)
  | transactionConflict (entityId : EntityId) (source : String)
deriving DecidableEq

structure RowTooLarge where
  scope : String
  position : Nat
  eventId : String
  size : Nat
  limit : Nat
deriving DecidableEq

/-- A page read below a scope's floor: the snapshot that replaces the rows asked for. -/
structure JournalGone where
  scope : String
  after : Nat
  checkpoint : Nat
  chunkCount : Nat
  digest : String
deriving DecidableEq

/-- A hold on the fence: its owner, its fencing token and the second it lapses. -/
structure RebuildLease where
  owner : String
  generation : Int
  leaseExpiresAt : Int
deriving DecidableEq

inductive Error where
  | conflict (entityId : EntityId) (message : String)
  | sequenceGap (entityId : EntityId) (after found : Int)
  | duplicateCommand (commandId : CommandId)
  | streamHeadDrift (entityId : EntityId) (stored : Option Int) (derived : Int)
  | streamHeadsNotMigrated
  | storeNotInitialized
  | compactionUncovered (entityId : EntityId) (through : Int) (covered : Option Int)
  | replay (eventType : EventType) (version : Int) (phase : ReplayPhase) (source : BoxError)
  | snapshot (entityId : EntityId) (source : String)
  | invalidRecord (message : String)
  | commitTooLarge (actions bytes largestItem : Nat)
  | fenceConflict (entityId : EntityId) (head : Int) (provenance : FenceProvenance)
  | commandOrder (reason : String)
  | projectorWithoutEvents (operations : Nat)
  | projectorSetConflict (entityId : EntityId)
  | transactionPoisoned
  | retentionConflict (entityType : EntityType)
  | rebuildInProgress
  | rebuildLockHeld (owner : String) (leaseExpiresAt : Int)
  | rebuildLeaseLost (owner : String)
  | rebuildConflict (attempts : Nat)
  | rebuildBeginIndeterminate (lease : RebuildLease) (observed : Int) (source : BoxError)
  | rebuildStateInvalid (message : String)
  | rebuildUnavailable (generation : Int) (forceReleased : Bool)
  | rebuildEpochChanged (observed current : Int)
  | json (message : String)
  | handler (source : BoxError)
  | projector (source : BoxError)
  | projectorOperation (error : ProjectorOperationError)
  | invalidViewOperation (message : String)
  | viewKeyTooLong (field : String) (length max : Nat) (projector : String) (operation : Nat)
  | duplicateViewKey (pk sk : String) (first second : String × Nat)
  | reservedViewKey (pk projector : String) (operation : Nat)
  | commitOrder (commits : List String)
  | sharedViewKey (pk sk first second : String)
  | viewsUnsupported (repository : String)
  | expectedPayloadUnsupported (repository : String)
  | historyDeclarationUnsupported (repository : String)
  | viewsNotConfigured (backend : String)
  | journalRowTooLarge (row : RowTooLarge)
  | invalidJournal (message : String)
  | journalGone (gone : JournalGone)
  | journalSnapshotMoved (scope : String) (checkpoint : Nat)
  | foreignJournalRow (pk sk owner entityType : String)
  | compactionLeaseHeld (scope owner : String) (leaseExpiresAt : Int)
  | compactionLeaseLost (scope owner : String)
  | transient (source : BoxError)
  | invalidCommit (message : String)
  | invalidConfig (message : String)
  | invalidArgument (message : String)
  | reservedEntityId (entityId : EntityId)
  | unsupportedFeature (feature : String) (version : Int)
  | historyDependentProjection (entityType : EntityType) (entityId : EntityId)
  | commandIdTooLong (length : Nat)
  | outcomeTooLarge (what : String) (size : Nat)
  | idempotencyKeyReuse (commandId : CommandId) (priorOutcome : Outcome)
  | outcomePrincipalMismatch (commandId : CommandId) (recorded : Bool)
  | outcomeConflict (commandId : CommandId)
  | ambiguousWrite (commandId : CommandId) (source : BoxError)
  | indeterminate (source : BoxError)
  | backend (source : BoxError)

namespace Error

def isConflict : Error → Bool
  | .conflict _ _ | .sequenceGap _ _ _ | .fenceConflict _ _ _ => true
  | _ => false

def isDuplicateCommand : Error → Bool
  | .duplicateCommand _ => true
  | _ => false

end Error

end EventStore
