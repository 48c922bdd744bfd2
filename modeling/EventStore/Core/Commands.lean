import EventStore.Core.Store

/-!
Commands on a store: the plain load, handle and commit, and the execution that
records an outcome under fence-aware retry.
-/
namespace EventStore

open Result Program

inductive Retry where
  | never
  | transient
  | conflict
deriving DecidableEq

def Retry.of : Error → Retry
  | .conflict _ _ | .sequenceGap _ _ _ | .fenceConflict _ _ .engine => .conflict
  | .transient _ | .ambiguousWrite _ _ => .transient
  | .rebuildInProgress | .rebuildConflict _ | .rebuildUnavailable _ _
  | .rebuildEpochChanged _ _ => .transient
  | _ => .never

/-- A conflict found while deciding says the read was inconsistent, no more. -/
def Retry.ofDecision (error : Error) : Retry :=
  match Retry.of error with
  | .conflict => .transient
  | other => other

inductive Phase where
  | internal
  | deciding
  | committing
deriving DecidableEq

structure Failed where
  error : Error
  phase : Phase

def Failed.retry (failed : Failed) : Retry :=
  match failed.phase with
  | .internal => .never
  | .deciding => Retry.ofDecision failed.error
  | .committing => Retry.of failed.error

def inPhase {α : Type} (phase : Phase) (p : Program (Except Error α)) :
    Program (Except Failed α) :=
  p.bind fun
    | .error error => .done (.error ⟨error, phase⟩)
    | .ok a => .done (.ok a)

def internally {α : Type} : Except Error α → Except Failed α
  | .error error => .error ⟨error, .internal⟩
  | .ok a => .ok a

@[simp] theorem internally_eq_ok {α : Type} {x : Except Error α} {a : α} :
    internally x = .ok a ↔ x = .ok a := by
  cases x <;> simp [internally]

@[simp] theorem internally_eq_error {α : Type} {x : Except Error α} {failed : Failed} :
    internally x = .error failed ↔ ∃ error, x = .error error ∧ failed = ⟨error, .internal⟩ := by
  cases x <;> simp [internally, eq_comm]

structure PendingCommand where
  commandId : CommandId
  digest : String
  identity : RecordedIdentity
  metadata : Metadata

def RecordedIdentity.of (input : DigestInput) : RecordedIdentity :=
  ⟨input.commandType, (input.targets.insertionSort (· ≤ ·)).dedup,
    if input.principal = "" then none else some input.principal⟩

def OutcomeConfig.digest (config : OutcomeConfig) (input : DigestInput) : Except Error String := do
  checkText "the command type" input.commandType
  checkText "the principal" input.principal
  match config.digester input with
  | .error source => .error (.invalidArgument ("the command digester failed: " ++ source))
  | .ok digest => do
    refuse (digest = "")
      (.invalidArgument "the command digester returned an empty digest")
    refuse (hasNul digest)
      (.invalidArgument "the command digester returned a digest containing U+0000")
    return digest

def OutcomeConfig.staleFence (config : OutcomeConfig) (rejection : Rejection) : Rejection :=
  { rejection with code := config.staleFenceCode }

def checkTargets : List EntityId → Except Error Unit
  | [] => .ok ()
  | target :: targets => do
    checkText "a target stream ID" target
    checkNotReserved target
    checkTargets targets

def principal (metadata : Metadata) : String := metadata.principalId.getD ""

namespace PendingCommand

def new (config : OutcomeConfig) (commandId : CommandId) (input : DigestInput)
    (metadata : Metadata) : Except Error PendingCommand := do
  return ⟨commandId, ← config.digest input, .of input, metadata⟩

def accepted (pending : PendingCommand) : Outcome :=
  (Outcome.accepted pending.commandId pending.digest).withIdentity pending.identity

def rejected (pending : PendingCommand) (rejection : Rejection) : Outcome :=
  (Outcome.rejected pending.commandId pending.digest rejection).withIdentity pending.identity

end PendingCommand

/-- What a command's execution returns; `events` are those it committed. -/
structure CommandOutcome (ε : Type) where
  outcome : Outcome
  events : List SerializedEvent
  typedEvents : List ε
  replayed : Bool

namespace CommandOutcome

def fresh {ε : Type} (outcome : Outcome) (events : List SerializedEvent)
    (typedEvents : List ε) : CommandOutcome ε := ⟨outcome, events, typedEvents, false⟩

def replay {ε : Type} (outcome : Outcome) : CommandOutcome ε := ⟨outcome, [], [], true⟩

def ofSettled {ε : Type} (stored : Outcome) (events : List SerializedEvent)
    (typedEvents : List ε) : Settled → CommandOutcome ε
  | .committed => fresh stored events typedEvents
  | .replayed outcome => replay outcome

end CommandOutcome

def submitSettled {ε : Type} (E : Env) (request : Request) (stored : Outcome)
    (events : List SerializedEvent) (typedEvents : List ε) (window : Nat) :
    Program (Except Error (CommandOutcome ε)) :=
  (ask (.submit request)).bind fun result =>
    andThen (settle E stored.commandId stored.digest window result) fun settled =>
      .done (.ok (.ofSettled stored events typedEvents settled))

def persistRejection {ε : Type} (E : Env) (pending : PendingCommand) (window : Nat)
    (rejection : Rejection) : Program (Except Error (CommandOutcome ε)) :=
  check (rejection.canonical E) fun rejection =>
    let outcome := pending.rejected rejection
    submitSettled E (.transaction { streams := [], outcome := some outcome })
      (outcome.stored []) [] [] window

def RowTooLarge.text (row : RowTooLarge) : String :=
  "the journal row for event " ++ row.eventId ++ " in scope " ++ debug row.scope ++ " is " ++
    toString row.size ++ " bytes, over the " ++ toString row.limit ++ " byte cap"

def RowTooLarge.toRejection (row : RowTooLarge) : Rejection :=
  ⟨"journal-row-too-large", row.text, some (.object [("scope", .string row.scope),
    ("eventId", .string row.eventId), ("size", .number (toString row.size)),
    ("limit", .number (toString row.limit))])⟩

def deadlinePassed (policy : RetryPolicy) : Program Bool :=
  match policy.deadline with
  | none => .done false
  | some _ => ask .pastDeadline

section Retry

variable {ε : Type} (E : Env) (config : OutcomeConfig) (pending : PendingCommand)
  (attempt : Program (Except Failed (CommandOutcome ε))) (returns : Retry → Bool)

/-- No attempt is left: a conflict is recorded as the rejection, another error returned. -/
def exhausted (attempts : Nat) (failed : Failed) :
    Program (Except Error (CommandOutcome ε)) :=
  if returns failed.retry then .done (.error failed.error)
  else
    persistRejection E pending config.recoveryWait
      (config.staleFence (.retriesExhausted attempts))

/-- What follows an attempt; `next` is given the failures that are retried. -/
def afterAttempt (next : Failed → Program (Except Error (CommandOutcome ε))) :
    Except Failed (CommandOutcome ε) → Program (Except Error (CommandOutcome ε))
  | .ok outcome => .done (.ok outcome)
  | .error ⟨.journalRowTooLarge row, _⟩ =>
    persistRejection E pending config.recoveryWait row.toRejection
  | .error failed =>
    if failed.retry = .never then .done (.error failed.error) else next failed

/-- Runs attempts until one settles; `left` more may follow this one, numbered `number`. -/
def retried : Nat → Nat → Program (Except Error (CommandOutcome ε))
  | 0, number =>
    attempt.bind (afterAttempt E config pending (exhausted E config pending returns number))
  | left + 1, number =>
    attempt.bind (afterAttempt E config pending fun failed =>
      (deadlinePassed config.retry).bind fun
        | true => exhausted E config pending returns number failed
        | false => retried left (number + 1))

def fenceAwareRetry : Program (Except Error (CommandOutcome ε)) :=
  retried E config pending attempt returns (max 1 config.retry.maxAttempts - 1) 1

end Retry

namespace StoreConfig

variable {A : Aggregate} (config : StoreConfig A)

def refuseOutcomes (method : String) : Except Error Unit :=
  refuse config.outcomes.isSome (.invalidConfig ("this store records command outcomes: " ++
    method ++
    " would skip the outcome row; use execute_with_outcome (or a Transaction with begin_command)"))

def checkUnseen (loaded : Loaded A) (metadata : Metadata) : Except Error Unit :=
  match metadata.commandId with
  | none => .ok ()
  | some commandId => refuse (loaded.hasSeen commandId) (.duplicateCommand commandId)

def stamped {β : Type} (loaded : Loaded A) (events : List A.Event) (metadata : Metadata)
    (next : Loaded A → Commit Empty → Program (Except Error β)) : Program (Except Error β) :=
  (stampCommitId metadata).bind fun metadata =>
    check (config.stage loaded events metadata) fun (loaded, commit) => next loaded commit

def commit (loaded : Loaded A) (events : List A.Event) (metadata : Metadata) :
    Program (Except Error (Loaded A × List SerializedEvent)) :=
  check (config.refuseOutcomes "commit") fun _ =>
    check (checkUnseen loaded metadata) fun _ =>
      if events.isEmpty then .done (.ok (loaded, []))
      else
        andThen (readyProjectors config.commitProjectors) fun _ =>
          config.stamped loaded events metadata fun loaded commit =>
            andThen (ask (.submit (.commit commit))) fun _ => .done (.ok (loaded, commit.events))

inductive ExecuteError (A : Aggregate) where
  | error (error : Error)
  | rejected (failure : A.Failure)

def execute (entityId : EntityId) (command : A.Command) (metadata : Metadata) :
    Program (Except (ExecuteError A) (Loaded A × List SerializedEvent)) :=
  let lift {β : Type} (p : Program (Except Error β)) : Program (Except (ExecuteError A) β) :=
    p.bind fun
      | .error error => .done (.error (.error error))
      | .ok value => .done (.ok value)
  andThen (lift (.done (config.refuseOutcomes "execute"))) fun _ =>
    andThen (lift (loadWithCatchUp A entityId config.catchUpThreshold)) fun loaded =>
      andThen (lift (.done (checkUnseen loaded metadata))) fun _ =>
        (ask .consult).bind fun services =>
          match A.handle loaded.aggregate command services with
          | .error failure => .done (.error (.rejected failure))
          | .ok events => lift (config.commit loaded events metadata)

section Outcomes

variable (E : Env) (outcomes : OutcomeConfig) (pending : PendingCommand)

def record (commit : Commit Empty) (outcome : Outcome) (typedEvents : List A.Event) :
    Program (Except Failed (CommandOutcome A.Event)) :=
  inPhase .committing (submitSettled E (.commit { commit with outcome := some outcome })
    (outcome.stored (commit.events.map (·.id))) commit.events typedEvents outcomes.recoveryWait)

def recordEvents (loaded : Loaded A) (events : List A.Event)
    (outcome : A.State → Except Error Outcome) :
    Program (Except Failed (CommandOutcome A.Event)) :=
  andThen (inPhase .internal (readyProjectors config.commitProjectors)) fun _ =>
    (stampCommitId pending.metadata).bind fun metadata =>
      check (internally (config.stage loaded events metadata)) fun (loaded, commit) =>
        check (internally (outcome loaded.aggregate)) fun outcome =>
          record E outcomes commit outcome events

def attemptRejected (loaded : Loaded A) (failure : A.Failure) :
    Program (Except Failed (CommandOutcome A.Event)) :=
  match A.toRejection failure with
  | none => .done (.error ⟨.handler (.text (A.failureText failure)), .internal⟩)
  | some rejection =>
    check (internally (rejection.canonical E)) fun rejection =>
      let events := A.rejectionEvents loaded.aggregate failure
      if events.isEmpty then
        record E outcomes { entityId := loaded.entityId, events := [] }
          (pending.rejected rejection) []
      else
        config.recordEvents E outcomes pending loaded events fun _ =>
          .ok (pending.rejected rejection)

variable (respond : A.State → List A.Event → Except String (Option Bytes))

def acceptedOutcome (state : A.State) (events : List A.Event) : Except Error Outcome :=
  match respond state events with
  | .error source => .error (.invalidArgument ("the response callback failed: " ++ source))
  | .ok none => .ok pending.accepted
  | .ok (some response) => .ok (pending.accepted.withResponse response)

def attemptAccepted (loaded : Loaded A) (events : List A.Event) :
    Program (Except Failed (CommandOutcome A.Event)) :=
  if events.isEmpty then
    check (internally (acceptedOutcome pending respond loaded.aggregate [])) fun outcome =>
      record E outcomes { entityId := loaded.entityId, events := [] } outcome events
  else
    config.recordEvents E outcomes pending loaded events fun state =>
      acceptedOutcome pending respond state events

def attemptWithResponse (entityId : EntityId) (command : A.Command) :
    Program (Except Failed (CommandOutcome A.Event)) :=
  andThen (inPhase .deciding (preCheck pending.commandId pending.digest)) fun
    | some stored => .done (.ok (.replay stored))
    | none =>
      andThen (inPhase .deciding (loadWithCatchUp A entityId config.catchUpThreshold))
        fun loaded =>
          if loaded.hasSeen pending.commandId then
            .done (.error ⟨.duplicateCommand pending.commandId, .internal⟩)
          else
            (ask .consult).bind fun services =>
              match A.handle loaded.aggregate command services with
              | .error failure => config.attemptRejected E outcomes pending loaded failure
              | .ok events => config.attemptAccepted E outcomes pending respond loaded events

end Outcomes

def canonicalInput (entityId : EntityId) (command : A.Command) (metadata : Metadata) :
    Except Error DigestInput :=
  match A.canonicalPayload command with
  | .error source => .error (.invalidArgument ("the command payload: " ++ source))
  | .ok payload =>
    .ok ⟨A.commandType command, [entityId], payload.getD .empty, principal metadata⟩

def freeze (outcomes : OutcomeConfig) (entityId : EntityId) (command : A.Command)
    (metadata : Metadata) : Except Error PendingCommand := do
  checkTargets [entityId]
  let commandId ← requireCommandId metadata
  let input ← canonicalInput entityId command metadata
  PendingCommand.new outcomes commandId input metadata

def executeWithResponse (E : Env) (entityId : EntityId) (command : A.Command)
    (metadata : Metadata) (respond : A.State → List A.Event → Except String (Option Bytes)) :
    Program (Except Error (CommandOutcome A.Event)) :=
  match config.outcomes with
  | none =>
    .done (.error (.invalidConfig "command outcomes are not enabled; call with_outcomes"))
  | some outcomes =>
    check (freeze outcomes entityId command metadata) fun pending =>
      fenceAwareRetry E outcomes pending
        (config.attemptWithResponse E outcomes pending respond entityId command)
        (fun retry => retry == .transient)

end StoreConfig

end EventStore
