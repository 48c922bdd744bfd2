import EventStore.Core.Features

/-!
The DynamoDB item layout: attribute values, condition expressions, and the items of events,
snapshots, heads, outcome rows and views. Every backend sizes a commit by these items.
-/
namespace EventStore

/-- The attribute values the log writes. A number is stored as its decimal text. -/
inductive AttributeValue where
  | s (text : String)
  | n (number : Int)
  | bool (value : Bool)
deriving DecidableEq

abbrev Item := OrdMap String AttributeValue

namespace AttributeValue

def size : AttributeValue → Nat
  | .s text => text.utf8ByteSize
  | .n number => (toString number).utf8ByteSize
  | .bool _ => 1

end AttributeValue

def itemSize (item : Item) : Nat :=
  (item.toList.map fun (name, value) => name.utf8ByteSize + value.size).sum

/-- Condition expressions over the attributes of one item and the request's values. -/
inductive Condition where
  | notExists (name : String)
  | existing (name : String)
  | equal (name value : String)
  | atMost (name value : String)
  | lessThan (name value : String)
  | greaterThan (name value : String)
  | both (left right : Condition)
  | either (left right : Condition)
  | group (inner : Condition)
deriving DecidableEq

namespace Condition

def text : Condition → String
  | .notExists name => "attribute_not_exists(" ++ name ++ ")"
  | .existing name => "attribute_exists(" ++ name ++ ")"
  | .equal name value => name ++ " = " ++ value
  | .atMost name value => name ++ " <= " ++ value
  | .lessThan name value => name ++ " < " ++ value
  | .greaterThan name value => name ++ " > " ++ value
  | .both left right => left.text ++ " AND " ++ right.text
  | .either left right => left.text ++ " OR " ++ right.text
  | .group inner => "(" ++ inner.text ++ ")"

def headCreate : Condition := .notExists "head"
def headAppend : Condition := .equal "head" ":prev"
def headAppendRetained : Condition :=
  .both (.equal "head" ":prev") (.group (.either (.notExists "#ttl") (.atMost "#ttl" ":t")))
def headFence : Condition := .equal "head" ":head"
def headFenceAbsent : Condition := .notExists "head"
def viewAbsent : Condition := .notExists "pk"
def viewPut : Condition := .either (.notExists "pk") (.equal "entityID" ":owner")
def viewPresent : Condition := .both (.existing "pk") (.equal "entityID" ":owner")
def viewDelete : Condition := .either (.notExists "pk") (.equal "entityID" ":owner")
def viewExpectedPayload : Condition :=
  .both (.equal "entityID" ":owner") (.equal "payload" ":expected")
def rebuildLockCheck : Condition := .notExists "pk"
def rebuildAcquireLock : Condition := .either (.notExists "pk") (.equal "forceReleased" ":true")
def rebuildAcquire : Condition :=
  .either (.either (.notExists "#value") (.equal "#value" ":seenEven"))
    (.group (.both (.equal "#value" ":seenOdd") (.equal "forceReleased" ":true")))
def rebuildTakeoverLock : Condition :=
  .both (.lessThan "leaseExpiresAt" ":now") (.equal "#owner" ":observedOwner")
def rebuildSeenOdd : Condition := .equal "#value" ":seenOdd"
def rebuildRenew : Condition :=
  .both (.equal "#owner" ":owner") (.equal "#generation" ":generation")
def rebuildRelease : Condition := .both (.equal "#owner" ":me") (.equal "#generation" ":generation")
def rebuildForceRelease : Condition := .equal "#owner" ":requestedOwner"
def rebuildGuard : Condition :=
  .both (.both (.equal "#owner" ":me") (.equal "#generation" ":generation"))
    (.greaterThan "leaseExpiresAt" ":now")

def put : ViewCondition → Condition
  | .absent => viewAbsent
  | _ => viewPut

def delete : ViewCondition → Condition
  | .present => viewPresent
  | _ => viewDelete

end Condition

example : Condition.headAppendRetained.text =
    "head = :prev AND (attribute_not_exists(#ttl) OR #ttl <= :t)" := by decide

example : Condition.rebuildAcquire.text = "attribute_not_exists(#value) OR #value = :seenEven " ++
    "OR (#value = :seenOdd AND forceReleased = :true)" := by decide

def headUpdate : String := "SET head = :last"
def headUpdateRetained : String := "SET head = :last, #ttl = :t"
def ownerPlaceholder : String := ":owner"

def snapshotSortKey : Int := 0
def headSortKey : Int := -1
def featuresSortKey : Int := 0
def rebuildSortKey : Int := 0
def outcomeSortKey : Int := 1
def featuresId : String := "SYSTEM#FEATURES"
def rebuildLockId : String := "SYSTEM#REBUILD"
def rebuildGenerationId : String := "SYSTEM#REBUILD#GENERATION"

def utf8 (bytes : Bytes) (what : String) : Except Error String :=
  match String.fromUTF8? bytes with
  | some text => .ok text
  | none =>
    .error (.invalidRecord (what ++ " is not valid UTF-8 and cannot be stored as a string"))

def insertTtl (item : Item) (ttl : Option Int) : Item :=
  match ttl.filter (0 < ·) with
  | some ttl => item.insert "ttl" (.n ttl)
  | none => item

def itemOf (attributes : List (String × AttributeValue)) : Item :=
  attributes.foldl (fun item (name, value) => item.insert name value) ∅

def eventItem (E : Env) (event : SerializedEvent) (ttl : Option Int) : Except Error Item := do
  let payload ← utf8 event.payload "event payload"
  return insertTtl (itemOf
    [("pk", .s event.entityId), ("sk", .n event.sequence), ("type", .s event.eventType),
      ("version", .n event.version), ("entityType", .s event.entityType),
      ("payload", .s payload), ("metadata", .s (E.metadata event.metadata))]) ttl

def snapshotItem (snapshot : SerializedSnapshot) (ttl : Option Int) : Except Error Item := do
  let payload ← utf8 snapshot.payload "snapshot payload"
  return insertTtl (itemOf
    [("pk", .s snapshot.entityId), ("sk", .n snapshotSortKey), ("seq", .n snapshot.sequence),
      ("eventSeq", .n snapshot.eventSequence), ("entityType", .s snapshot.entityType),
      ("payload", .s payload)]) ttl

def OutcomeStatus.text : OutcomeStatus → String
  | .accepted => "accepted"
  | .rejected => "rejected"

def outcomeKey (commandId : CommandId) : String := commandOutcomePrefix ++ commandId

def RecordedIdentity.attributes (E : Env) (identity : RecordedIdentity) :
    List (String × AttributeValue) :=
  [("commandType", .s identity.commandType), ("targets", .s (E.strings identity.targets))] ++
    (identity.principal.map fun principal => ("principal", AttributeValue.s principal)).toList

def outcomeItem (E : Env) (o : Outcome) : Except Error Item := do
  let rejection ← match o.rejection with
    | none => pure []
    | some rejection => do
      let text ← rejection.encode E
      pure [("rejection", AttributeValue.s text), ("code", .s rejection.code)]
  return itemOf
    ([("pk", .s (outcomeKey o.commandId)), ("sk", .n outcomeSortKey),
      ("status", .s o.status.text), ("digest", .s o.digest)] ++
    ((o.response.filter fun r => !r.isEmpty).map
      fun r => ("response", AttributeValue.s (E.base64 r))).toList ++
    (if o.eventIds.isEmpty then [] else [("events", .s (E.strings o.eventIds))]) ++
    rejection ++ ((o.identity.map (·.attributes E)).getD []))

def viewOperationItem (op : ViewOperation) : Except Error Item := do
  let payload ← utf8 op.payload "view payload"
  return itemOf
    [("pk", .s op.pk), ("sk", .s op.sk), ("entityID", .s op.owner),
      ("entityType", .s op.entityType), ("payload", .s payload)]

def viewOperationSize (op : ViewOperation) : Nat :=
  let keys := "pk".utf8ByteSize + op.pk.utf8ByteSize + "sk".utf8ByteSize + op.sk.utf8ByteSize
  match op.kind with
  | .delete =>
    keys + (Condition.delete op.condition).text.utf8ByteSize +
      ownerPlaceholder.utf8ByteSize + op.owner.utf8ByteSize
  | .put =>
    keys + "entityID".utf8ByteSize + op.owner.utf8ByteSize + "entityType".utf8ByteSize +
      op.entityType.utf8ByteSize + "payload".utf8ByteSize + op.payload.size

structure HeadAction where
  entityId : EntityId
  updateExpression : Option String
  condition : Condition
  names : List (String × String)
  values : List (String × Int)
deriving DecidableEq

namespace HeadAction

def update (entityId : EntityId) (first last : Int) (ttl : Option Int) : HeadAction :=
  { entityId
    updateExpression := some (if ttl.isSome then headUpdateRetained else headUpdate)
    condition :=
      if first ≤ 1 then .headCreate
      else if ttl.isSome then .headAppendRetained else .headAppend
    names := if ttl.isSome then [("#ttl", "ttl")] else []
    values := (":last", last) :: (if first ≤ 1 then [] else [(":prev", first - 1)]) ++
      (ttl.map fun ttl => (":t", ttl)).toList }

def fence (entityId : EntityId) (head : Int) : HeadAction :=
  if head ≤ 0 then ⟨entityId, none, .headFenceAbsent, [], []⟩
  else ⟨entityId, none, .headFence, [], [(":head", head)]⟩

def key (action : HeadAction) : Item :=
  itemOf [("pk", .s action.entityId), ("sk", .n headSortKey)]

def size (action : HeadAction) : Nat :=
  itemSize action.key + ((action.updateExpression.map String.utf8ByteSize).getD 0) +
    action.condition.text.utf8ByteSize +
    (action.names.map fun (p, name) => p.utf8ByteSize + name.utf8ByteSize).sum +
    (action.values.map fun (p, number) =>
      p.utf8ByteSize + (toString number).utf8ByteSize).sum

end HeadAction

def markerCheckSize : Nat :=
  itemSize (itemOf [("pk", .s featuresId), ("sk", .n featuresSortKey)])

def lockCheckSize : Nat :=
  "pk".utf8ByteSize + rebuildLockId.utf8ByteSize + "sk".utf8ByteSize +
    (toString rebuildSortKey).utf8ByteSize

end EventStore
