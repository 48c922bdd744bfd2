import EventStore.Core.Tables
import EventStore.Core.Rebuild
import EventStore.Lib.Scripts

/-!
The rebuild fence on DynamoDB: its two items, the requests that move them, and the calls as
programs. A begin reads both items, decides, and sends one conditional transaction; every other
call is one request.
-/
namespace EventStore

open Result

def rebuildLockKey : TableKey := .log rebuildLockId rebuildSortKey

def rebuildGenerationKey : TableKey := .log rebuildGenerationId rebuildSortKey

def rebuildLockItem (lock : RebuildLock) : Item :=
  ((rebuildLockKey.item.insert "owner" (.s lock.owner)).insert "generation"
    (.n lock.generation)).insert "leaseExpiresAt" (.n lock.leaseExpiresAt)

/-- What a force-release leaves: no lease's condition holds of it, and no commit's lock check. -/
def rebuildForceReleasedItem : Item := rebuildLockKey.item.insert "forceReleased" (.bool true)

def requiredString (item : Item) (name : String) : Except Error String :=
  match item[name]? with
  | some (.s value) => .ok value
  | none => .error (.invalidRecord ("item has no " ++ name ++ " attribute"))
  | some _ => .error (.invalidRecord ("attribute " ++ name ++ " is not a string"))

def requiredNumber (item : Item) (name : String) : Except Error Int :=
  match item[name]? with
  | some (.n value) => .ok value
  | none => .error (.invalidRecord ("item has no " ++ name ++ " attribute"))
  | some _ => .error (.invalidRecord ("attribute " ++ name ++ " is not a number"))

def rebuildLockStateFromItem (item : Item) : Except Error (Option RebuildLock) :=
  match item["forceReleased"]? with
  | some (.bool true) => .ok none
  | some _ => .error (.invalidRecord "rebuild lock: forceReleased is not true")
  | none => do
    let owner ← requiredString item "owner"
    let generation ← requiredNumber item "generation"
    let leaseExpiresAt ← requiredNumber item "leaseExpiresAt"
    return some ⟨owner, generation, leaseExpiresAt⟩

def rebuildLockItemOf (s : RebuildState) : Option Item :=
  match s.lock with
  | some lock => some (rebuildLockItem lock)
  | none =>
    if s.generation.forceReleased && !s.generation.isSettled then some rebuildForceReleasedItem
    else none

def rebuildGenerationItem (g : RebuildGeneration) : Item :=
  let item := rebuildGenerationKey.item.insert "value" (.n g.value)
  if g.forceReleased then item.insert "forceReleased" (.bool true) else item

def rebuildGenerationFromItem (item : Item) : Except Error RebuildGeneration := do
  let forceReleased ← match item["forceReleased"]? with
    | none => .ok false
    | some (.bool flag) => .ok flag
    | some _ => .error (.invalidRecord "rebuild generation: forceReleased is not a boolean")
  return ⟨← requiredNumber item "value", forceReleased⟩

def rebuildAcquireUpdate : UpdateExpression where
  sets := [("#value", .plus (.ifNotExists "#value" ":zero") (.bound ":increment"))]

def rebuildTakeoverUpdate : UpdateExpression where
  sets := [("#value", .plus (.attribute "#value") (.bound ":two"))]

def rebuildRenewUpdate : UpdateExpression where
  sets := [("leaseExpiresAt", .bound ":expiry")]

def rebuildReleaseUpdate : UpdateExpression where
  sets := [("#value", .plus (.attribute "#value") (.bound ":one"))]
  removes := ["forceReleased"]

def rebuildForceReleaseUpdate : UpdateExpression where
  sets := [("#value", .plus (.attribute "#value") (.bound ":two")),
    ("forceReleased", .bound ":true")]

example : rebuildAcquireUpdate.text = "SET #value = if_not_exists(#value, :zero) + :increment" := by
  decide

example : rebuildForceReleaseUpdate.text = "SET #value = #value + :two, forceReleased = :true" := by
  decide

inductive Release where
  | finish
  | force
deriving DecidableEq

def RebuildLease.lockItem (lease : RebuildLease) : Item :=
  rebuildLockItem ⟨lease.owner, lease.generation, lease.leaseExpiresAt⟩

def rebuildTakeoverLockItem (plan : Plan) (lease : RebuildLease) (now : Int) : TransactItem where
  key := rebuildLockKey
  kind := .put lease.lockItem
  condition := .rebuildTakeoverLock
  bindings := ⟨[("#owner", "owner")],
    [(":now", .n now), (":observedOwner", .s (plan.observedOwner.getD ""))]⟩

def rebuildTakeoverItem (plan : Plan) : TransactItem where
  key := rebuildGenerationKey
  kind := .update rebuildTakeoverUpdate
  condition := .rebuildSeenOdd
  bindings := ⟨[("#value", "value")], [(":two", .n 2), (":seenOdd", .n plan.seenOdd)]⟩

/-- The put replaces the item a force-release left; a held lock never matches. -/
def rebuildAcquireLockItem (lease : RebuildLease) : TransactItem where
  key := rebuildLockKey
  kind := .put lease.lockItem
  condition := .rebuildAcquireLock
  bindings := ⟨[], [(":true", .bool true)]⟩

def rebuildAcquireItem (plan : Plan) : TransactItem where
  key := rebuildGenerationKey
  kind := .update rebuildAcquireUpdate
  condition := .rebuildAcquire
  bindings := ⟨[("#value", "value")], [(":zero", .n 0), (":increment", .n plan.increment),
    (":seenEven", .n plan.seenEven), (":seenOdd", .n plan.seenOdd), (":true", .bool true)]⟩

def rebuildBeginItems (plan : Plan) (lease : RebuildLease) (now : Int) : List TransactItem :=
  if plan.kind = .takeover then
    [rebuildTakeoverLockItem plan lease now, rebuildTakeoverItem plan]
  else [rebuildAcquireLockItem lease, rebuildAcquireItem plan]

def rebuildRenewItem (lease : RebuildLease) (leaseExpiresAt : Int) : TransactItem where
  key := rebuildLockKey
  kind := .update rebuildRenewUpdate
  condition := .rebuildRenew
  bindings := ⟨[("#owner", "owner"), ("#generation", "generation")],
    [(":expiry", .n leaseExpiresAt), (":owner", .s lease.owner),
      (":generation", .n lease.generation)]⟩

def rebuildReleaseLockItem (owner : String) (seenOdd : Int) : TransactItem where
  key := rebuildLockKey
  kind := .delete
  condition := .rebuildRelease
  bindings := ⟨[("#owner", "owner"), ("#generation", "generation")],
    [(":me", .s owner), (":generation", .n seenOdd)]⟩

def rebuildReleaseItem (seenOdd : Int) : TransactItem where
  key := rebuildGenerationKey
  kind := .update rebuildReleaseUpdate
  condition := .rebuildSeenOdd
  bindings := ⟨[("#value", "value")], [(":seenOdd", .n seenOdd), (":one", .n 1)]⟩

def rebuildForceReleaseLockItem (owner : String) : TransactItem where
  key := rebuildLockKey
  kind := .put rebuildForceReleasedItem
  condition := .rebuildForceRelease
  bindings := ⟨[("#owner", "owner")], [(":requestedOwner", .s owner)]⟩

def rebuildForceReleaseItem (seenOdd : Int) : TransactItem where
  key := rebuildGenerationKey
  kind := .update rebuildForceReleaseUpdate
  condition := .rebuildSeenOdd
  bindings := ⟨[("#value", "value")],
    [(":seenOdd", .n seenOdd), (":two", .n 2), (":true", .bool true)]⟩

def rebuildReleaseItems (owner : String) (seenOdd : Int) : Release → List TransactItem
  | .finish => [rebuildReleaseLockItem owner seenOdd, rebuildReleaseItem seenOdd]
  | .force => [rebuildForceReleaseLockItem owner, rebuildForceReleaseItem seenOdd]

def rebuildGuardItem (lease : RebuildLease) (now : Int) : TransactItem where
  key := rebuildLockKey
  kind := .check
  condition := .rebuildGuard
  bindings := ⟨[("#owner", "owner"), ("#generation", "generation")],
    [(":me", .s lease.owner), (":generation", .n lease.generation), (":now", .n now)]⟩

def rebuildLockCheckItem : TransactItem where
  key := rebuildLockKey
  kind := .check
  condition := .rebuildLockCheck

def ViewOperation.tableKey (op : ViewOperation) : TableKey := .view op.pk op.sk

def viewItem (op : ViewOperation) : Except Error TransactItem :=
  match op.kind with
  | .put => do
    match op.expectedPayload with
    | some expected => do
      match String.fromUTF8? expected with
      | none => .error (.invalidViewOperation "an expected view payload must be UTF-8")
      | some expected => do
        return { key := op.tableKey, kind := .put (← viewOperationItem op)
                 condition := .viewExpectedPayload
                 bindings := ⟨[], [(":owner", .s op.owner), (":expected", .s expected)]⟩ }
    | none => do
      return { key := op.tableKey, kind := .put (← viewOperationItem op)
               condition := .put op.condition
               bindings := ⟨[], if op.condition = .absent then [] else
                [(":owner", .s op.owner)]⟩ }
  | .delete =>
    return { key := op.tableKey, kind := .delete, condition := .delete op.condition
             bindings := ⟨[], [(":owner", .s op.owner)]⟩ }

def viewItems (views : List ProjectedView) : Except Error (List TransactItem) :=
  views.mapM fun view => viewItem view.op

/-- A call of the fence, or a commit's lock check and view operations. -/
inductive DynamoCall where
  | begin (owner : String) (lease : Duration)
  | renew (lease : RebuildLease) (extend : Duration)
  | finish (lease : RebuildLease)
  | forceRelease (owner : String)
  | write (lease : RebuildLease) (views : List ProjectedView)
  | commit (views : List ProjectedView)

inductive FenceResult where
  | lease (lease : RebuildLease)
  | generation (generation : RebuildGeneration)
  | written
deriving DecidableEq

inductive FenceSend where
  | begin (plan : Plan) (lease : RebuildLease) (now : Int)
  | renew (lease : RebuildLease) (leaseExpiresAt : Int)
  | release (kind : Release) (owner : String) (seenOdd : Int)
  | views (lease : RebuildLease) (views : List ProjectedView) (now : Int)
  | commit (views : List ProjectedView)

namespace FenceSend

def items : FenceSend → Except Error (List TransactItem)
  | .begin plan lease now => .ok (rebuildBeginItems plan lease now)
  | .renew lease leaseExpiresAt => .ok [rebuildRenewItem lease leaseExpiresAt]
  | .release kind owner seenOdd => .ok (rebuildReleaseItems owner seenOdd kind)
  | .views lease batch now => do return (← viewItems batch) ++ [rebuildGuardItem lease now]
  | .commit batch => do return rebuildLockCheckItem :: (← viewItems batch)

def result : FenceSend → FenceResult
  | .begin _ lease _ => .lease lease
  | .renew lease leaseExpiresAt => .lease { lease with leaseExpiresAt }
  | .release .finish _ seenOdd => .generation ⟨seenOdd + 1, false⟩
  | .release .force _ seenOdd => .generation ⟨seenOdd + 2, true⟩
  | .views _ _ _ | .commit _ => .written

end FenceSend

/-- A request that failed: its reason codes, and how the error is classified. -/
structure SendFailure where
  codes : List (Option String)
  throttled : Bool
  unknown : Bool
  transient : Bool
  source : String

namespace SendFailure

def raceLost (f : SendFailure) : Bool :=
  f.codes.any fun code =>
    code == some "ConditionalCheckFailed" || code == some "TransactionConflict"

def conditionFailed (f : SendFailure) : Bool := f.codes.contains (some "ConditionalCheckFailed")

def sdkError (f : SendFailure) : Error :=
  if f.transient || f.throttled then .transient (.text f.source) else .backend (.text f.source)

def fenceError (f : SendFailure) : Error :=
  if f.codes.any fun code => code == some "TransactionConflict" ||
      code == some "ThrottlingError" || code == some "ProvisionedThroughputExceeded" then
    .transient (.text f.source)
  else f.sdkError

/-- The error of a failed begin; nothing when it lost a race and decides again. -/
def beginError (f : SendFailure) (lease : RebuildLease) (observed : Int) : Option Error :=
  if f.raceLost then none
  else if !f.throttled && f.unknown then
    some (.rebuildBeginIndeterminate lease observed (.text f.source))
  else some f.fenceError

def failedView (f : SendFailure) (views : List ProjectedView) (codes : List (Option String)) :
    Option Error :=
  (views.zip codes).findSome? fun (view, code) =>
    match code with
    | none => none
    | some code =>
      if code = "ConditionalCheckFailed" ∨ code = "ValidationError" ∨
          code = "ItemCollectionSizeLimitExceeded" then
        some (.projectorOperation (.forView view code
          (if code ≠ reasonConditionFailed then some f.source else none)))
      else none

end SendFailure

inductive TableAsk where
  | get (key : TableKey)
  | now
  | send (call : DynamoCall) (now : Int) (request : FenceSend)

def TableAnswer : TableAsk → Type
  | .get _ => Except Error Item
  | .now => Int
  | .send _ _ _ => Except SendFailure Unit

abbrev DynamoProgram (α : Type) := Script TableAsk TableAnswer α

namespace DynamoProgram

def rebuildItem (key : TableKey) : DynamoProgram (Except Error (Option Item)) :=
  (Script.ask (TableAsk.get key) : DynamoProgram (Except Error Item)).andThen fun item =>
    .done (.ok (if item.isEmpty then none else some item))

def rebuildGeneration : DynamoProgram (Except Error RebuildGeneration) :=
  (rebuildItem rebuildGenerationKey).andThen fun
    | none => .done (.ok ⟨0, false⟩)
    | some item => .done (rebuildGenerationFromItem item)

def rebuildState : DynamoProgram (Except Error RebuildState) :=
  rebuildGeneration.andThen fun generation =>
    (rebuildItem rebuildLockKey).andThen fun
      | none => .done (.ok ⟨generation, none⟩)
      | some item =>
        Script.check (rebuildLockStateFromItem item) fun lock => .done (.ok ⟨generation, lock⟩)

def now : DynamoProgram Int := Script.ask TableAsk.now

def send (call : DynamoCall) (now : Int) (request : FenceSend) :
    DynamoProgram (Except SendFailure Unit) :=
  Script.ask (TableAsk.send call now request)

/-- The attempts of a begin. A state that no transaction produces is read again. -/
def beginFrom (owner : String) (length : Duration) (seconds : Int) :
    Nat → Option Error → DynamoProgram (Except Error FenceResult)
  | 0, invalid => .done (.error (invalid.getD (.rebuildConflict maxRebuildBeginAttempts)))
  | left + 1, _ =>
    rebuildState.andThen fun state =>
      now.bind fun now =>
        match Plan.decide state now with
        | .error (.rebuildStateInvalid message) =>
          beginFrom owner length seconds left (some (.rebuildStateInvalid message))
        | .error error => .done (.error error)
        | .ok plan =>
          let lease := state.planned plan owner (saturatingAdd now seconds)
          (send (.begin owner length) now (.begin plan lease now)).bind fun
            | .ok () => .done (.ok (.lease lease))
            | .error failure =>
              match failure.beginError lease state.generation.value with
              | some error => .done (.error error)
              | none => beginFrom owner length seconds left none

def beginRebuild (owner : String) (length : Duration) :
    DynamoProgram (Except Error FenceResult) :=
  Script.check (checkLease owner length) fun seconds =>
    beginFrom owner length seconds maxRebuildBeginAttempts none

def renewRebuild (lease : RebuildLease) (extend : Duration) :
    DynamoProgram (Except Error FenceResult) :=
  Script.check (checkLease lease.owner extend) fun seconds =>
    now.bind fun now =>
      let leaseExpiresAt := saturatingAdd now seconds
      (send (.renew lease extend) now (.renew lease leaseExpiresAt)).bind fun
        | .ok () => .done (.ok (.lease { lease with leaseExpiresAt }))
        | .error failure =>
          .done (.error (if failure.conditionFailed then .rebuildLeaseLost lease.owner
            else failure.sdkError))

def releaseRebuild (call : DynamoCall) (owner : String) (release : Release) (seen : Int) :
    DynamoProgram (Except Error FenceResult) :=
  (send call 0 (.release release owner seen)).bind fun
    | .ok () => .done (.ok (.generation (match release with
        | .finish => ⟨seen + 1, false⟩
        | .force => ⟨seen + 2, true⟩)))
    | .error failure =>
      .done (.error (if failure.conditionFailed then .rebuildLeaseLost owner
        else failure.fenceError))

def endRebuild (lease : RebuildLease) : DynamoProgram (Except Error FenceResult) :=
  Script.check (checkRebuildOwner lease.owner) fun _ =>
    releaseRebuild (.finish lease) lease.owner .finish lease.generation

def forceReleaseRebuild (owner : String) : DynamoProgram (Except Error FenceResult) :=
  Script.check (checkRebuildOwner owner) fun _ =>
    rebuildGeneration.andThen fun seen =>
      if seen.isSettled then .done (.error (.rebuildLeaseLost owner))
      else releaseRebuild (.forceRelease owner) owner .force seen.value

def writeRebuildViews (lease : RebuildLease) (views : List ProjectedView) :
    DynamoProgram (Except Error FenceResult) :=
  Script.check (checkRebuildOwner lease.owner) fun _ =>
    Script.check (checkViewBatch views) fun _ =>
      now.bind fun now =>
        Script.check (FenceSend.views lease views now).items fun _ =>
          (send (.write lease views) now (.views lease views now)).bind fun
            | .ok () => .done (.ok .written)
            | .error failure =>
              .done (.error (
                if failure.codes[views.length]? = some (some "ConditionalCheckFailed") then
                  .rebuildLeaseLost lease.owner
                else (failure.failedView views failure.codes).getD failure.fenceError))

def commitViews (views : List ProjectedView) : DynamoProgram (Except Error FenceResult) :=
  Script.check (checkViews views) fun _ =>
    Script.check (FenceSend.commit views).items fun _ =>
      (send (.commit views) 0 (.commit views)).bind fun
        | .ok () => .done (.ok .written)
        | .error failure =>
          .done (.error (
            if failure.codes[0]? = some (some "ConditionalCheckFailed") then .rebuildInProgress
            else (failure.failedView views (failure.codes.drop 1)).getD failure.fenceError))

end DynamoProgram

namespace DynamoCall

def program : DynamoCall → DynamoProgram (Except Error FenceResult)
  | .begin owner lease => .beginRebuild owner lease
  | .renew lease extend => .renewRebuild lease extend
  | .finish lease => .endRebuild lease
  | .forceRelease owner => .forceReleaseRebuild owner
  | .write lease views => .writeRebuildViews lease views
  | .commit views => .commitViews views

def inMemory (s : Stores) (now : Int) : DynamoCall → Except Error (FenceResult × Stores)
  | .begin owner lease => do
    let (lease, rebuild) ← s.rebuild.beginRebuild now owner lease
    return (.lease lease, { s with rebuild })
  | .renew lease extend => do
    let (lease, rebuild) ← s.rebuild.renewRebuild now lease extend
    return (.lease lease, { s with rebuild })
  | .finish lease => do
    let (generation, rebuild) ← s.rebuild.endRebuild lease
    return (.generation generation, { s with rebuild })
  | .forceRelease owner => do
    let (generation, rebuild) ← s.rebuild.forceReleaseRebuild owner
    return (.generation generation, { s with rebuild })
  | .write lease views => do
    let s ← s.writeRebuildViews now lease views
    return (.written, s)
  | .commit views => do
    checkViews views
    checkRebuild s
    checkViewConditions s.views views
    return (.written, { s with views := applyViews s.views views })

end DynamoCall

end EventStore
