import EventStore.Lib.Result
import EventStore.Core.Errors

/-!
The checks a commit passes before any storage is read: reserved namespaces, text
that every backend can store, the command ID and outcome limits, and the view
operations. JSON texts come from a third-party encoder and are a parameter.
-/
namespace EventStore

open Result

/-- Why a text layer refused a value. -/
inductive TextError where
  | json (message : String)
  | invalidArgument (message : String)
  | outcomeTooLarge (size : Nat)

def TextError.toError : TextError → Error
  | .json message => .json message
  | .invalidArgument message => .invalidArgument message
  | .outcomeTooLarge size => .outcomeTooLarge "rejection" size

/-- What the build and the text layers provide: features, the stored texts, and errors' texts. -/
structure Env where
  journalBuild : Bool
  metadata : Metadata → String
  strings : List String → String
  rejection : Rejection → Except TextError String
  readRejection : String → Except String Rejection
  base64 : Bytes → String
  errorText : Error → String

def Env.plain : Env where
  journalBuild := false
  metadata := fun _ => "null"
  strings := fun _ => "null"
  rejection := fun _ => .ok "null"
  readRejection := fun _ => .ok ⟨"rejected", "", none⟩
  base64 := fun _ => ""
  errorText := fun _ => ""

def systemPrefix : String := "SYSTEM#"
def commandOutcomePrefix : String := "command-outcome#"

def startsWith (text start : String) : Bool := start.toList.isPrefixOf text.toList

def isReserved (entityId : EntityId) : Bool :=
  startsWith entityId systemPrefix || startsWith entityId commandOutcomePrefix

def checkNotReserved (entityId : EntityId) : Except Error Unit :=
  refuse (isReserved entityId) (.reservedEntityId entityId)

theorem checkNotReserved_ok {entityId : EntityId} :
    checkNotReserved entityId = .ok () ↔ isReserved entityId = false := by
  simp [checkNotReserved]

def hasNul (text : String) : Bool := text.toList.contains '\x00'

def checkText (what value : String) : Except Error Unit :=
  refuse (hasNul value) (.invalidArgument (what ++ " must not contain U+0000"))

def checkTexts : List (String × String) → Except Error Unit
  | [] => .ok ()
  | (what, value) :: rest => do
    checkText what value
    checkTexts rest

def Metadata.texts (m : Metadata) : List (String × String) :=
  let optional : List (String × Option String) :=
    [("commandId", m.commandId), ("causationId", m.causationId),
      ("principalId", m.principalId), ("address", m.address)]
  optional.filterMap (fun (what, value) => value.map (what, ·)) ++
    [("region", m.region), ("timestamp", m.timestamp), ("commitId", m.commitId)] ++
    (match m.origin with
      | none => []
      | some origin =>
        [("origin.source", origin.source), ("origin.endpoint", origin.endpoint)]) ++
    (match m.trace with
      | none => []
      | some trace => trace.toList.flatMap (fun (k, v) => [("trace", k), ("trace", v)])) ++
    m.extensions.toList.flatMap (fun (k, v) => [("extensions", k), ("extensions", v)])

def checkMetadata (m : Metadata) : Except Error Unit := checkTexts m.texts

def SerializedEvent.texts (event : SerializedEvent) : List (String × String) :=
  [("event.id", event.id), ("event.type", event.eventType),
    ("event.entityId", event.entityId), ("event.entityType", event.entityType)] ++
    event.metadata.texts

def checkCommitText (events : List SerializedEvent) (entityTypes : List EntityType)
    (entityIds : List EntityId) : Except Error Unit :=
  checkTexts (events.flatMap SerializedEvent.texts ++ entityTypes.map ("entityType", ·) ++
    entityIds.map ("entityId", ·))

def maxCommandIdBytes : Nat := 512
def maxOutcomeBytes : Nat := 65536

def checkCommandId (commandId : CommandId) : Except Error Unit := do
  refuse (commandId = "")
    (.invalidArgument "a command ID is required when command outcomes are enabled")
  refuse (hasNul commandId) (.invalidArgument "a command ID must not contain U+0000")
  refuse (maxCommandIdBytes < commandId.utf8ByteSize)
    (.commandIdTooLong commandId.utf8ByteSize)

def requireCommandId (m : Metadata) : Except Error CommandId :=
  match m.commandId.filter (fun id => id ≠ "") with
  | none =>
    .error (.invalidArgument "a command ID is required when command outcomes are enabled")
  | some commandId => do
    checkCommandId commandId
    checkMetadata m
    return commandId

namespace Json

def isNull : Json → Bool
  | .null => true
  | _ => false

def isObject : Json → Bool
  | .object _ => true
  | _ => false

mutual
def valueHasNul : Json → Bool
  | .string text => hasNul text
  | .array items => itemsHaveNul items
  | .object fields => fieldsHaveNul fields
  | _ => false

def itemsHaveNul : List Json → Bool
  | [] => false
  | item :: items => valueHasNul item || itemsHaveNul items

def fieldsHaveNul : List (String × Json) → Bool
  | [] => false
  | (key, value) :: fields => hasNul key || valueHasNul value || fieldsHaveNul fields
end

end Json

def Rejection.encode (E : Env) (r : Rejection) : Except Error String :=
  if r.details.any (fun details => !details.isObject) then
    .error (.invalidArgument "rejection details must be a JSON object or absent")
  else if hasNul r.code || hasNul r.message || r.details.any Json.valueHasNul then
    .error (.invalidArgument
      "a rejection must not contain U+0000 in its code, message, or details")
  else (E.rejection r).mapError TextError.toError

def Rejection.canonical (E : Env) (r : Rejection) : Except Error Rejection := do
  let text ← r.encode E
  (E.readRejection text).mapError fun message => .invalidRecord ("decode rejection: " ++ message)

def RecordedIdentity.size (E : Env) (identity : RecordedIdentity) : Nat :=
  identity.commandType.utf8ByteSize + (E.strings identity.targets).utf8ByteSize +
    (identity.principal.map String.utf8ByteSize).getD 0

def checkStatus (o : Outcome) : Except Error Unit :=
  match o.status with
  | .accepted =>
    refuse o.rejection.isSome (.invalidArgument "an accepted outcome carries no rejection")
  | .rejected =>
    refuse (o.rejection.all fun rejection => rejection.code.isEmpty)
      (.invalidArgument "a rejected outcome needs a rejection with a code")

def checkRejection (E : Env) : Option Rejection → Except Error Unit
  | none => .ok ()
  | some rejection => discard (rejection.encode E)

def checkIdentity (E : Env) : Option RecordedIdentity → Except Error Unit
  | none => .ok ()
  | some identity =>
    refuse (maxOutcomeBytes < identity.size E) (.outcomeTooLarge "identity" (identity.size E))

def checkOutcome (E : Env) (o : Outcome) : Except Error Unit := do
  checkCommandId o.commandId
  refuse (o.digest = "") (.invalidArgument "an outcome needs an identity digest")
  checkText "an identity digest" o.digest
  checkStatus o
  let response := (o.response.map ByteArray.size).getD 0
  refuse (maxOutcomeBytes < response) (.outcomeTooLarge "response" response)
  checkRejection E o.rejection
  checkIdentity E o.identity

def maxViewPkBytes : Nat := 2048
def maxViewSkBytes : Nat := 1024

def nulReason : List (String × String) → Option String
  | [] => none
  | (name, value) :: rest =>
    if hasNul value then some (name ++ " contains U+0000") else nulReason rest

def putPayloadReason (payload : Bytes) : Option String :=
  match String.fromUTF8? payload with
  | none => some "payload is not valid UTF-8"
  | some text => nulReason [("payload", text)]

def invalidReason (op : ViewOperation) : Option String :=
  if op.kind = .put ∧ op.condition = .present then
    some "a put cannot carry the \"present\" condition"
  else if op.kind = .delete ∧ op.condition = .absent then
    some "a delete cannot carry the \"absent\" condition"
  else if op.expectedPayload.isSome ∧ (op.kind ≠ .put ∨ op.condition ≠ .none) then
    some "an expected payload is valid only on a put with no other condition"
  else if op.pk.isEmpty then some "pk is empty"
  else if op.sk.isEmpty then some "sk is empty"
  else if op.owner.isEmpty then some "owner is empty"
  else
    match nulReason [("pk", op.pk), ("sk", op.sk), ("owner", op.owner)] with
    | some reason => some reason
    | none =>
      if op.kind = .put then
        (nulReason [("entityType", op.entityType)]).or (putPayloadReason op.payload)
      else none

def checkViewKey (view : ProjectedView) (field : String) (length max : Nat) :
    Except Error Unit :=
  refuse (max < length) (.viewKeyTooLong field length max view.projector view.operation)

def checkReason (view : ProjectedView) : Except Error Unit :=
  match invalidReason view.op with
  | some reason =>
    .error (.invalidViewOperation ("projector " ++ debug view.projector ++ " (#" ++
      toString view.projectorIndex ++ ") operation " ++ toString view.operation ++ ": " ++
      reason))
  | none => .ok ()

/-- `seen` holds the keys of the earlier operations with the projector and operation
that wrote them. -/
def checkDuplicate (seen : List ((String × String) × (String × Nat))) (view : ProjectedView) :
    Except Error Unit :=
  match seen.lookup view.op.key with
  | some first =>
    .error (.duplicateViewKey view.op.pk view.op.sk first (view.projector, view.operation))
  | none => .ok ()

def checkView (seen : List ((String × String) × (String × Nat))) (view : ProjectedView) :
    Except Error Unit := do
  checkReason view
  checkViewKey view "pk" view.op.pk.utf8ByteSize maxViewPkBytes
  checkViewKey view "sk" view.op.sk.utf8ByteSize maxViewSkBytes
  checkDuplicate seen view

def checkViewsFrom (seen : List ((String × String) × (String × Nat))) :
    List ProjectedView → Except Error Unit
  | [] => .ok ()
  | view :: views => do
    checkView seen view
    checkViewsFrom ((view.op.key, (view.projector, view.operation)) :: seen) views

def checkViews (views : List ProjectedView) : Except Error Unit := checkViewsFrom [] views

end EventStore
