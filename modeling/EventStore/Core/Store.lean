import EventStore.Lib.Scripts
import EventStore.Memory.Writes
import EventStore.Core.Aggregates

/-!
The store's programs over a shared repository: loads, commits, and commands with a recorded
outcome. Every await is a call; between two calls anything can happen.
-/
namespace EventStore

open Result

/-- The calls of the store's programs; a bounded outcome read may run out of time. -/
inductive Ask where
  | span (entityId : EntityId)
  | outcome (commandId : CommandId)
  | outcomeWithin (commandId : CommandId)
  | snapshot (entityId : EntityId)
  | eventsAfter (entityId : EntityId) (after : Int)
  | putSnapshot (snapshot : SerializedSnapshot)
  | submit (request : Request)
  | compactBelow (entityId : EntityId) (through : Int)
  | declareHistory (types : List EntityType)
  | generate
  | consult
  | pastDeadline

abbrev Answer : Ask → Type
  | .span _ => Unit
  | .outcome _ => Except Error (Option Outcome)
  | .outcomeWithin _ => Option (Except Error (Option Outcome))
  | .snapshot _ => Except Error (Option SerializedSnapshot)
  | .eventsAfter _ _ => Except Error (List SerializedEvent)
  | .putSnapshot _ => Except Error Bool
  | .submit _ => Except Error Unit
  | .compactBelow _ _ => Except Error Nat
  | .declareHistory _ => Except Error Unit
  | .generate => String
  | .consult => String
  | .pastDeadline => Bool

abbrev Program := Script Ask Answer

namespace Program

def ask (a : Ask) : Program (Answer a) := Script.ask a

export Script (andThen check)

theorem asks_ask {P : Ask → Prop} {a : Ask} (h : P a) : (ask a).Asks P := ⟨h, fun _ => trivial⟩

end Program

open Program

section Load

variable (A : Aggregate)

def loadOnce (entityId : EntityId) : Program (Except Error (Loaded A × Nat)) :=
  andThen (ask (.snapshot entityId)) fun snapshot =>
    check (Loaded.start entityId snapshot) fun loaded =>
      andThen (ask (.eventsAfter entityId loaded.sequence)) fun events =>
        check (loaded.replayAll events) fun loaded => .done (.ok (loaded, events.length))

def loadRetried (entityId : EntityId) : Nat → Program (Except Error (Loaded A × Nat))
  | 0 => loadOnce A entityId
  | left + 1 =>
    (loadOnce A entityId).bind fun
      | .error error =>
        if error.isConflict then loadRetried entityId left else .done (.error error)
      | .ok loaded => .done (.ok loaded)

def loadAttempts : Nat := 3

variable {A}

def catchUpSnapshot (loaded : Loaded A) : Program (Loaded A) :=
  match A.encode loaded.aggregate with
  | .error _ => .done loaded
  | .ok payload =>
    let snapshot : SerializedSnapshot := ⟨A.entityType, loaded.entityId,
      EventSequence.next loaded.snapshotSequence, loaded.sequence, payload⟩
    match snapshotFits snapshot with
    | .ok true =>
      (ask (.putSnapshot snapshot)).bind fun
        | .ok true => .done { loaded with snapshotSequence := snapshot.sequence }
        | _ => .done loaded
    | _ => .done loaded

variable (A)

def loadWithCatchUp (entityId : EntityId) (threshold : Nat) :
    Program (Except Error (Loaded A)) :=
  (ask (.span entityId)).bind fun _ =>
    andThen (loadRetried A entityId (loadAttempts - 1)) fun (loaded, replayed) =>
      if 0 < threshold ∧ threshold ≤ replayed then
        (catchUpSnapshot loaded).bind fun loaded => .done (.ok loaded)
      else .done (.ok loaded)

end Load

/-- The command ID, else the caller's commit ID, else a generated one. -/
def stampCommitId (metadata : Metadata) : Program Metadata :=
  match metadata.commandId.filter (fun id => id ≠ "") with
  | some commandId => .done { metadata with commitId := commandId }
  | none =>
    if metadata.commitId = "" then
      (ask .generate).bind fun generated => .done { metadata with commitId := generated }
    else .done metadata

def readyProjectors (projectors : List CommitProjector) : Program (Except Error Unit) :=
  match (projectors.flatMap (·.history)).dedup with
  | [] => .done (.ok ())
  | types => ask (.declareHistory types)

inductive Settled where
  | committed
  | replayed (outcome : Outcome)

def sameCommand (stored : Outcome) (digest : String) : Except Error Outcome :=
  if stored.digest = digest then .ok stored
  else .error (.idempotencyKeyReuse stored.commandId stored)

def preCheck (commandId : CommandId) (digest : String) :
    Program (Except Error (Option Outcome)) :=
  andThen (ask (.outcome commandId)) fun
    | some stored => check (sameCommand stored digest) fun stored => .done (.ok (some stored))
    | none => .done (.ok none)

def mayHaveLostTheRace : Error → Bool
  | .conflict _ _ | .sequenceGap _ _ _ | .fenceConflict _ _ _ => true
  | .transient (.transactionConflict _ _) => true
  | _ => false

inductive Polled where
  | found (outcome : Outcome)
  | absent
  | unreadable (error : Option Error)
  | corrupt (error : Error)

def pollDelay (reads : Nat) : Nat := min (50 * 2 ^ reads) 1000

theorem pollDelay_pos (reads : Nat) : 0 < pollDelay reads := by
  have : 0 < 2 ^ reads := Nat.two_pow_pos reads
  unfold pollDelay
  omega

/-- What a read of the row ends the polling with; nothing while there is no row. -/
def polledBy : Option (Except Error (Option Outcome)) → Option Polled
  | none => some (.unreadable none)
  | some (.ok (some outcome)) => some (.found outcome)
  | some (.error (.invalidRecord message)) => some (.corrupt (.invalidRecord message))
  | some (.error error) => some (.unreadable (some error))
  | some (.ok none) => none

def pollForRow (commandId : CommandId) (window reads waited : Nat) : Program Polled :=
  (ask (.outcomeWithin commandId)).bind fun row =>
    match polledBy row with
    | some polled => .done polled
    | none =>
      if window ≤ waited then .done .absent
      else pollForRow commandId window (reads + 1)
        (waited + min (pollDelay reads) (window - waited))
termination_by window - waited
decreasing_by
  have := pollDelay_pos reads
  omega

def replayedAs (stored : Outcome) (digest : String) : Except Error Settled := do
  return .replayed (← sameCommand stored digest)

def BoxError.text? : BoxError → String
  | .text message => message
  | .transactionConflict entityId _ =>
    "transaction conflict on entity " ++ entityId ++
      ": another writer was committing at the same time"

def outcomeConflictText (commandId : CommandId) : String :=
  "an outcome is already recorded for command " ++ commandId

def settlePolled (E : Env) (commandId : CommandId) (digest : String) (source : BoxError) :
    Polled → Except Error Settled
  | .found stored => replayedAs stored digest
  | .corrupt error => .error error
  | .absent | .unreadable none => .error (.ambiguousWrite commandId source)
  | .unreadable (some read) =>
    .error (.ambiguousWrite commandId (.text (source.text? ++
      "; reading the outcome row to recover also failed: " ++ E.errorText read)))

/-- A lost outcome put, after one bounded read of the winner's row. -/
def settleConflict (commandId : CommandId) (digest : String) :
    Option (Except Error (Option Outcome)) → Except Error Settled
  | some (.ok (some stored)) => replayedAs stored digest
  | some (.ok none) => .error (.outcomeConflict commandId)
  | some (.error error) => .error error
  | none => .error (.transient (.text (outcomeConflictText commandId ++
      ", and its outcome row could not be read in time")))

def settleRace (conflict : Error) (digest : String) :
    Option (Except Error (Option Outcome)) → Except Error Settled
  | some (.ok (some stored)) => replayedAs stored digest
  | some (.error (.invalidRecord message)) => .error (.invalidRecord message)
  | _ => .error conflict

/-- What a commit's result leaves to do: nothing, one bounded read of the row, or polling. -/
inductive Settling where
  | known (result : Except Error Settled)
  | reads (settle : Option (Except Error (Option Outcome)) → Except Error Settled)
  | polls (settle : Polled → Except Error Settled)

def settling (E : Env) (commandId : CommandId) (digest : String) : Except Error Unit → Settling
  | .ok () => .known (.ok .committed)
  | .error (.outcomeConflict id) => .reads (settleConflict id digest)
  | .error (.indeterminate source) => .polls (settlePolled E commandId digest source)
  | .error conflict =>
    if mayHaveLostTheRace conflict then .reads (settleRace conflict digest)
    else .known (.error conflict)

theorem settling_error (E : Env) (commandId : CommandId) (digest : String) {conflict : Error}
    (hid : ∀ id, conflict ≠ .outcomeConflict id)
    (hsource : ∀ source, conflict ≠ .indeterminate source) :
    settling E commandId digest (.error conflict) =
      if mayHaveLostTheRace conflict then .reads (settleRace conflict digest)
      else .known (.error conflict) := by
  cases conflict with
  | outcomeConflict id => exact absurd rfl (hid id)
  | indeterminate source => exact absurd rfl (hsource source)
  | _ => rfl

def settle (E : Env) (commandId : CommandId) (digest : String) (window : Nat)
    (result : Except Error Unit) : Program (Except Error Settled) :=
  match settling E commandId digest result with
  | .known settled => .done settled
  | .reads settle => (ask (.outcomeWithin commandId)).bind fun row => .done (settle row)
  | .polls settle => (pollForRow commandId window 0 0).bind fun polled => .done (settle polled)

end EventStore
