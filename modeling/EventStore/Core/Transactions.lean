import EventStore.Core.Commands

/-!
Multi-stream transactions: streams of any aggregate type are read and written, and committed once;
one that was only read is fenced at the head it saw. The caller's own steps are a program, which
decides only from what it is shown.
-/
namespace EventStore

open Result Program

variable {κ : Type} {A : κ → Aggregate}

structure TransactionConfig where
  snapshotInterval : Nat
  catchUpThreshold : Nat
  commitProjectors : List CommitProjector
  outcomes : Option OutcomeConfig

/-- A stream with the handle its caller holds; `loaded` has the staged events applied. -/
structure StreamState (A : κ → Aggregate) where
  kind : κ
  head : Int
  events : List SerializedEvent
  snapshot : Option NewSnapshot
  state : Bytes
  loaded : Loaded (A kind)

structure Transaction (A : κ → Aggregate) where
  streams : List (StreamState A)
  fences : List ReadFence
  poisoned : Bool
  finished : Bool
  command : Option PendingCommand
  readFailure : Option (EntityId × Error)
  expected : OrdMap EntityId Int

inductive Decision where
  | accept (response : Option Bytes)
  | reject (rejection : Rejection)
  | rejectWithEvents (rejection : Rejection)

/-- The steps of a caller: reads, appends by index, and a decision or a failure of its own. -/
inductive Prepare (A : κ → Aggregate) where
  | decide (decision : Decision)
  | fail (error : Error)
  | read (kind : κ) (entityId : EntityId)
      (next : Except Error ((A kind).State × Int) → Prepare A)
  | load (kind : κ) (entityId : EntityId)
      (next : Except Error ((A kind).State × Int) → Prepare A)
  | readLoaded (index : Nat) (next : Except Error Unit → Prepare A)
  | append (kind : κ) (index : Nat) (events : List (A kind).Event)
      (next : Except Error Unit → Prepare A)
  | fence (fence : ReadFence) (next : Except Error Unit → Prepare A)
  | expect (entityId : EntityId) (head : Int) (next : Except Error Unit → Prepare A)
  | consult (next : String → Prepare A)

namespace StreamState

def entityId (s : StreamState A) : EntityId := s.loaded.entityId

def entityType (s : StreamState A) : EntityType := (A s.kind).entityType

def saw (s : StreamState A) (commandId : CommandId) : Bool :=
  s.loaded.seenCommandIds.contains commandId

def ofLoaded {kind : κ} (loaded : Loaded (A kind)) : StreamState A :=
  ⟨kind, loaded.sequence, [], none, .empty, loaded⟩

def engineFence (s : StreamState A) : ReadFence :=
  ⟨s.entityId, s.entityType, s.head, .engine⟩

end StreamState

/-- The snapshot and the state of a stream with `appended` events staged since it was read. -/
def deriveStage (A : Aggregate) (commitProjectors : List CommitProjector) (interval : Nat)
    (loaded : Loaded A) (head : Int) (appended : Nat) (serialized : List SerializedEvent)
    (aggregate : A.State) : Except Error (Option NewSnapshot × Bytes) := do
  let due := decide (0 < snapshotEventsDue head appended interval)
  let state ← encodeWhen A (due || !commitProjectors.isEmpty) aggregate
  let snapshot ← dueSnapshot A due loaded.entityId loaded.snapshotSequence serialized
    (state.getD .empty)
  return (snapshot, if commitProjectors.isEmpty then .empty else state.getD .empty)

namespace Transaction

def new : Transaction A := ⟨[], [], false, false, none, none, ∅⟩

def checkOpen (tx : Transaction A) : Except Error Unit :=
  refuse tx.finished
    (.commandOrder "the command replayed a stored outcome, so this transaction is finished")

def hasRead (tx : Transaction A) (entityId : EntityId) : Bool :=
  tx.streams.any fun stream => stream.entityId == entityId

def checkUnread (tx : Transaction A) (entityId : EntityId) : Except Error Unit :=
  refuse (tx.hasRead entityId) (.invalidCommit ("duplicate read of " ++ entityId))

def readLoaded {kind : κ} (tx : Transaction A) (loaded : Loaded (A kind)) :
    Except Error (Transaction A) := do
  tx.checkOpen
  tx.checkUnread loaded.entityId
  return { tx with
    streams := tx.streams ++ [.ofLoaded loaded]
    readFailure := tx.readFailure.filter fun failure => failure.1 ≠ loaded.entityId }

def read (config : TransactionConfig) (tx : Transaction A) (kind : κ) (entityId : EntityId) :
    Program (Except Error ((A kind).State × Int) × Transaction A) :=
  match (do tx.checkOpen; tx.checkUnread entityId : Except Error Unit) with
  | .error error => .done (.error error, tx)
  | .ok () =>
    (loadWithCatchUp (A kind) entityId config.catchUpThreshold).bind fun
      | .error error => .done (.error error, { tx with readFailure := some (entityId, error) })
      | .ok loaded =>
        match tx.readLoaded loaded with
        | .error error => .done (.error error, tx)
        | .ok tx => .done (.ok (loaded.aggregate, loaded.sequence), tx)

def stageDerived (config : TransactionConfig) (stream : StreamState A)
    (serialized : List SerializedEvent) (aggregate : (A stream.kind).State) :
    Except Error (Option NewSnapshot × Bytes) :=
  deriveStage (A stream.kind) config.commitProjectors
    ((A stream.kind).snapshotInterval.getD config.snapshotInterval) stream.loaded stream.head
    (stream.events.length + serialized.length) serialized aggregate

def staged (stream : StreamState A) (serialized : List SerializedEvent)
    (aggregate : (A stream.kind).State) (snapshot : Option NewSnapshot) (state : Bytes) :
    StreamState A :=
  { stream with
    events := stream.events ++ serialized
    snapshot
    state
    loaded := { stream.loaded with
      aggregate
      sequence := (serialized.getLast?.map (·.sequence)).getD stream.loaded.sequence } }

/-- Stages decided events on a stream. A failure after the handle's aggregate changed
poisons the transaction. -/
def stageStream (config : TransactionConfig) (tx : Transaction A) (index : Nat)
    (stream : StreamState A) (events : List (A stream.kind).Event) :
    Except Error Unit × Transaction A :=
  if events.isEmpty then (.ok (), tx)
  else
    match serializeEvents (A stream.kind) stream.entityId stream.loaded.sequence {} events with
    | .error error => (.error error, tx)
    | .ok serialized =>
      let aggregate := events.foldl (A stream.kind).apply stream.loaded.aggregate
      match stageDerived config stream serialized aggregate with
      | .error error => (.error error, { tx with poisoned := true })
      | .ok (snapshot, state) =>
        (.ok (), { tx with
          streams := tx.streams.set index (staged stream serialized aggregate snapshot state) })

variable [DecidableEq κ]

def append (config : TransactionConfig) (tx : Transaction A) (kind : κ) (index : Nat)
    (events : List (A kind).Event) : Except Error Unit × Transaction A :=
  match tx.streams[index]? with
  | none => (.error (.invalidCommit "the stream was not read by this transaction"), tx)
  | some stream =>
    if h : kind = stream.kind then
      match (do tx.checkOpen; refuse tx.poisoned .transactionPoisoned : Except Error Unit) with
      | .error error => (.error error, tx)
      | .ok () => stageStream config tx index stream (h ▸ events)
    else (.error (.invalidCommit "the stream was not read by this transaction"), tx)

omit [DecidableEq κ]

def fence (tx : Transaction A) (fence : ReadFence) : Except Error Unit × Transaction A :=
  match tx.checkOpen with
  | .error error => (.error error, tx)
  | .ok () =>
    if tx.hasRead fence.entityId then (.ok (), tx)
    else (.ok (), { tx with fences := tx.fences ++ [{ fence with provenance := .caller }] })

def checkExpect (config : TransactionConfig) (tx : Transaction A) (entityId : EntityId)
    (head : Int) : Except Error Unit := do
  tx.checkOpen
  refuse config.outcomes.isNone (.invalidArgument ("client-expected versions are recorded as " ++
    "command outcomes; enable with_outcomes and begin the command with begin_command"))
  refuse (head < 0) (.invalidArgument ("expected head " ++ toString head ++ " of " ++ entityId ++
    " is negative"))
  match tx.expected[entityId]? with
  | none => .ok ()
  | some earlier =>
    refuse (earlier ≠ head) (.invalidArgument (entityId ++ " is expected at head " ++
      toString earlier ++ " and " ++ toString head))

def expect (config : TransactionConfig) (tx : Transaction A) (entityId : EntityId) (head : Int) :
    Except Error Unit × Transaction A :=
  match tx.checkExpect config entityId head with
  | .error error => (.error error, tx)
  | .ok () => (.ok (), { tx with expected := tx.expected.insert entityId head })

/-- A stream before and after events are staged on it. -/
inductive Stages (config : TransactionConfig) (stream : StreamState A)
    (events : List (A stream.kind).Event) : StreamState A → Prop
  | staged {serialized : List SerializedEvent} {snapshot : Option NewSnapshot} {state : Bytes}
      (hevents : events ≠ [])
      (hserialized : serializeEvents (A stream.kind) stream.entityId stream.loaded.sequence {}
        events = .ok serialized)
      (hderived : stageDerived config stream serialized (events.foldl (A stream.kind).apply
        stream.loaded.aggregate) = .ok (snapshot, state)) :
      Stages config stream events (staged stream serialized
        (events.foldl (A stream.kind).apply stream.loaded.aggregate) snapshot state)

/-- An append fails, has no events, or stages them. -/
theorem append_cases [DecidableEq κ] (config : TransactionConfig) (tx : Transaction A) (kind : κ)
    (index : Nat) (events : List (A kind).Event) :
    (∃ error poisoned, tx.append config kind index events =
        (.error error, { tx with poisoned })) ∨
      events = [] ∧ tx.append config kind index events = (.ok (), tx) ∨
      ∃ stream, ∃ h : kind = stream.kind, ∃ stream', tx.streams[index]? = some stream ∧
        Stages config stream (h ▸ events) stream' ∧ tx.append config kind index events =
          (.ok (), { tx with streams := tx.streams.set index stream' }) := by
  unfold append
  split
  · exact .inl ⟨_, tx.poisoned, rfl⟩
  rename_i stream hindex
  split
  case isFalse => exact .inl ⟨_, tx.poisoned, rfl⟩
  rename_i hkind
  subst hkind
  split
  · exact .inl ⟨_, tx.poisoned, rfl⟩
  unfold stageStream
  split
  · rename_i hevents
    exact .inr (.inl ⟨by simpa using hevents, rfl⟩)
  rename_i hevents
  split
  · exact .inl ⟨_, tx.poisoned, rfl⟩
  rename_i serialized hserialized
  dsimp only
  split
  · exact .inl ⟨_, true, rfl⟩
  · rename_i hderived
    exact .inr (.inr ⟨stream, rfl, _, hindex,
      .staged (by simpa using hevents) hserialized hderived, rfl⟩)

/-- What a caller's steps keep: it rests on the command and the streams, and staging keeps it. -/
structure Stable (config : TransactionConfig) (keeps : Transaction A → Prop) : Prop where
  same : ∀ {tx tx' : Transaction A}, keeps tx → tx'.command = tx.command →
    tx'.streams = tx.streams → keeps tx'
  stages : ∀ {tx : Transaction A} {index : Nat} {stream stream' : StreamState A} {events},
    keeps tx → tx.streams[index]? = some stream → Stages config stream events stream' →
    keeps { tx with streams := tx.streams.set index stream' }

section Stable

variable {config : TransactionConfig} {keeps : Transaction A → Prop} {tx : Transaction A}

theorem Stable.of_streams {keeps : StreamState A → Prop}
    (h : ∀ {stream stream' events}, keeps stream → Stages config stream events stream' →
      keeps stream') :
    Stable config fun tx : Transaction A => ∀ stream ∈ tx.streams, keeps stream where
  same htx _ hstreams := hstreams ▸ htx
  stages htx hindex hstages other hother := by
    rcases List.mem_or_eq_of_mem_set hother with hother | rfl
    · exact htx other hother
    · exact h (htx _ (List.mem_of_getElem? hindex)) hstages

theorem Stable.append [DecidableEq κ] (h : Stable config keeps) (htx : keeps tx) (kind : κ)
    (index : Nat) (events : List (A kind).Event) :
    keeps (tx.append config kind index events).2 := by
  obtain ⟨_, _, heq⟩ | ⟨-, heq⟩ | ⟨_, _, _, hindex, hstages, heq⟩ :=
    append_cases config tx kind index events <;> rw [heq]
  · exact h.same htx rfl rfl
  · exact htx
  · exact h.stages htx hindex hstages

theorem Stable.fence (h : Stable config keeps) (htx : keeps tx) (added : ReadFence) :
    keeps (tx.fence added).2 := by
  unfold Transaction.fence
  split
  · exact htx
  · split
    · exact htx
    · exact h.same htx rfl rfl

theorem Stable.expect (h : Stable config keeps) (htx : keeps tx) (entityId : EntityId)
    (head : Int) : keeps (tx.expect config entityId head).2 := by
  unfold Transaction.expect
  split
  · exact htx
  · exact h.same htx rfl rfl

end Stable

end Transaction

namespace Prepare

variable [DecidableEq κ]

def run (config : TransactionConfig) : Prepare A → Transaction A →
    List ((kind : κ) × Loaded (A kind)) → Program (Except Error Decision × Transaction A)
  | .decide decision, tx, _ => .done (.ok decision, tx)
  | .fail error, tx, _ => .done (.error error, tx)
  | .read kind entityId next, tx, loads =>
    (tx.read config kind entityId).bind fun (result, tx) => (next result).run config tx loads
  | .load kind entityId next, tx, loads =>
    (loadWithCatchUp (A kind) entityId config.catchUpThreshold).bind fun
      | .error error => (next (.error error)).run config tx loads
      | .ok loaded =>
        (next (.ok (loaded.aggregate, loaded.sequence))).run config tx
          (loads ++ [⟨kind, loaded⟩])
  | .readLoaded index next, tx, loads =>
    match loads[index]? with
    | none => (next (.error (.invalidCommit "no such load"))).run config tx loads
    | some ⟨_, loaded⟩ =>
      match tx.readLoaded loaded with
      | .error error => (next (.error error)).run config tx loads
      | .ok tx => (next (.ok ())).run config tx loads
  | .append kind index events next, tx, loads =>
    (next (tx.append config kind index events).1).run config
      (tx.append config kind index events).2 loads
  | .fence added next, tx, loads => (next (tx.fence added).1).run config (tx.fence added).2 loads
  | .expect entityId head next, tx, loads =>
    (next (tx.expect config entityId head).1).run config (tx.expect config entityId head).2 loads
  | .consult next, tx, loads =>
    (ask .consult).bind fun services => (next services).run config tx loads

end Prepare

structure StaleVersion where
  entityId : EntityId
  expected : Int
  actual : Int

def StaleVersion.details (stale : StaleVersion) : Json :=
  .object [("actual", .number (toString stale.actual)), ("entityId", .string stale.entityId),
    ("expected", .number (toString stale.expected))]

def Rejection.staleVersion (code : String) (stale : List StaleVersion) : Rejection :=
  ⟨code, "a client-expected stream version is stale",
    some (.object [("streams", .array
      ((stale.insertionSort fun a b => a.entityId ≤ b.entityId).map StaleVersion.details))])⟩

namespace Transaction

def hasEvents (tx : Transaction A) : Bool := tx.streams.any fun stream => !stream.events.isEmpty

def written (tx : Transaction A) : List (StreamState A) :=
  (tx.streams.filter fun stream => !stream.events.isEmpty).insertionSort
    fun a b => a.entityId ≤ b.entityId

def callerFences (tx : Transaction A) : List ReadFence :=
  tx.fences.filter fun fence => !tx.hasRead fence.entityId

def stampedEvents (stream : StreamState A) (stamped : Metadata) : List SerializedEvent :=
  stream.events.map fun event => { event with metadata := stamped }

def streamCommit (stamped : Metadata) (stream : StreamState A) : Commit Empty :=
  { entityId := stream.entityId
    events := stampedEvents stream stamped
    snapshot := stream.snapshot }

def streamView (stamped : Metadata) (stream : StreamState A) : CommitStream :=
  .new stream.entityId stream.entityType (stampedEvents stream stamped) stream.state

def checkUnseen (tx : Transaction A) (commandId : CommandId) : Except Error Unit :=
  refuse (tx.streams.any fun stream => stream.saw commandId) (.duplicateCommand commandId)

def checkStamped (tx : Transaction A) (stamped : Metadata) : Except Error Unit :=
  match stamped.commandId.filter (fun id => id ≠ "") with
  | none => .ok ()
  | some commandId => tx.checkUnseen commandId

/-- The commit of a transaction: every unwritten read is fenced at the head it saw. -/
def build (config : TransactionConfig) (tx : Transaction A) (stamped : Metadata) :
    Except Error (TransactionCommit Empty) := do
  tx.checkStamped stamped
  let views ← projectApplication config.commitProjectors
    ⟨stamped.commitId, tx.written.map (streamView stamped)⟩
  return {
    streams := tx.written.map (streamCommit stamped)
    fences := tx.callerFences ++
      (tx.streams.filter fun stream => stream.events.isEmpty).map (·.engineFence)
    views }

theorem written_sorted (tx : Transaction A) :
    tx.written.Pairwise fun a b => a.entityId ≤ b.entityId :=
  Ranking.pairwise_insertionSort StreamState.entityId _

theorem mem_written {tx : Transaction A} {stream : StreamState A} :
    stream ∈ tx.written ↔ stream ∈ tx.streams ∧ stream.events ≠ [] := by
  rw [written, (List.perm_insertionSort _ _).mem_iff, List.mem_filter]
  simp

theorem build_ok {config : TransactionConfig} {tx : Transaction A} {stamped : Metadata}
    {commit : TransactionCommit Empty} (h : tx.build config stamped = .ok commit) :
    commit.streams = tx.written.map (streamCommit stamped) ∧
      commit.fences = tx.callerFences ++
        (tx.streams.filter fun stream => stream.events.isEmpty).map (·.engineFence) ∧
      commit.operations = [] ∧
      projectApplication config.commitProjectors
        ⟨stamped.commitId, tx.written.map (streamView stamped)⟩ = .ok commit.views := by
  simp only [build, bind_eq_ok] at h
  obtain ⟨-, -, views, hviews, h⟩ := h
  cases h
  exact ⟨rfl, rfl, rfl, hviews⟩

def prepare (config : TransactionConfig) (tx : Transaction A) (metadata : Metadata) :
    Program (Except Error (TransactionCommit Empty)) :=
  check (refuse tx.poisoned .transactionPoisoned) fun _ =>
    (stampCommitId metadata).bind fun stamped => .done (tx.build config stamped)

def ready (config : TransactionConfig) (tx : Transaction A) : Program (Except Error Unit) :=
  if tx.hasEvents then readyProjectors config.commitProjectors else .done (.ok ())

def commit (config : TransactionConfig) (tx : Transaction A) (metadata : Metadata) :
    Program (Except Error (List SerializedEvent)) :=
  check (refuse config.outcomes.isSome (.invalidConfig ("this transaction records command " ++
      "outcomes: commit would skip the outcome row; call begin_command, then " ++
      "commit_with_outcome or reject"))) fun _ =>
    andThen (tx.ready config) fun _ =>
      andThen (tx.prepare config metadata) fun commit =>
        andThen (ask (.submit (.transaction commit))) fun _ =>
          .done (.ok (commit.streams.flatMap (·.events)))

section Outcomes

variable (E : Env) (config : TransactionConfig)

def recoveryWait : Nat := (config.outcomes.map (·.recoveryWait)).getD 0

def persistStaleFence (pending : PendingCommand) : Program (Except Error (CommandOutcome Unit)) :=
  persistRejection E pending (recoveryWait config)
    ((config.outcomes.map fun outcomes => outcomes.staleFence .staleFence).getD .staleFence)

/-- Submits a commit with its outcome; a failed caller fence records the stale-fence rejection. -/
def submitOutcome (pending : PendingCommand) (commit : TransactionCommit Empty)
    (outcome : Outcome) : Program (Except Error (CommandOutcome Unit)) :=
  let commit := { commit with outcome := some outcome }
  let events := commit.streams.flatMap (·.events)
  (ask (.submit (.transaction commit))).bind fun
    | .error (.fenceConflict _ _ .caller) => persistStaleFence E config pending
    | result =>
      andThen (settle E pending.commandId pending.digest (recoveryWait config) result)
        fun settled =>
          .done (.ok (.ofSettled (outcome.stored (events.map (·.id))) events [] settled))

def commitRejection (pending : PendingCommand) (rejection : Rejection)
    (commit : TransactionCommit Empty) : Program (Except Error (CommandOutcome Unit)) :=
  check (rejection.canonical E) fun rejection =>
    submitOutcome E config pending commit (pending.rejected rejection)

def takeCommand (tx : Transaction A) : Except Error PendingCommand := do
  tx.checkOpen
  refuse config.outcomes.isNone
    (.invalidConfig "command outcomes are not enabled; call with_outcomes")
  match tx.command with
  | some pending => .ok pending
  | none =>
    .error (.invalidArgument
      "begin_command must be called before the transaction records an outcome")

def checkRecordable (tx : Transaction A) : Except Error PendingCommand := do
  let pending ← tx.takeCommand config
  refuse tx.poisoned .transactionPoisoned
  tx.checkUnseen pending.commandId
  return pending

def reject (tx : Transaction A) (rejection : Rejection) :
    Program (Except Error (CommandOutcome Unit)) :=
  check (tx.checkRecordable config) fun pending =>
    commitRejection E config pending rejection
      { streams := [], fences := tx.streams.map (·.engineFence) ++ tx.callerFences }

def rejectWithEvents (tx : Transaction A) (rejection : Rejection) :
    Program (Except Error (CommandOutcome Unit)) :=
  check (tx.takeCommand config) fun pending =>
    andThen (tx.ready config) fun _ =>
      andThen (tx.prepare config pending.metadata) fun commit =>
        commitRejection E config pending rejection commit

def staleVersions (tx : Transaction A) : List (EntityId × Int) → Except Error (List StaleVersion)
  | [] => .ok []
  | (entityId, expected) :: rest =>
    match tx.streams.find? (fun stream => stream.entityId == entityId) with
    | none =>
      .error (.invalidArgument (entityId ++
        " has an expected head but the transaction never read it"))
    | some stream => do
      let stale ← tx.staleVersions rest
      return if stream.head = expected then stale
        else ⟨entityId, expected, stream.head⟩ :: stale

def staleRejection (tx : Transaction A) : Except Error (Option Rejection) :=
  if tx.expected.isEmpty then .ok none
  else do
    discard (tx.checkRecordable config)
    match ← tx.staleVersions tx.expected.toList with
    | [] => return none
    | stale =>
      return some (.staleVersion
        ((config.outcomes.map (·.staleVersionCode)).getD Rejection.staleVersionCode) stale)

def commitWithOutcome (tx : Transaction A) (response : Option Bytes) :
    Program (Except Error (CommandOutcome Unit)) :=
  check (tx.staleRejection config) fun
    | some rejection => tx.reject E config rejection
    | none =>
      check (tx.takeCommand config) fun pending =>
        andThen (tx.ready config) fun _ =>
          andThen (tx.prepare config pending.metadata) fun commit =>
            submitOutcome E config pending commit
              (match response with
                | none => pending.accepted
                | some response => pending.accepted.withResponse response)

def finish (tx : Transaction A) : Decision → Program (Except Error (CommandOutcome Unit))
  | .accept response => tx.commitWithOutcome E config response
  | .reject rejection => tx.reject E config rejection
  | .rejectWithEvents rejection => tx.rejectWithEvents E config rejection

end Outcomes

def isReadFailure (E : Env) (tx : Transaction A) (error : Error) : Bool :=
  tx.readFailure.any fun failure =>
    failure.2.ctorIdx == error.ctorIdx && E.errorText failure.2 == E.errorText error

end Transaction

structure CommandIdentity where
  commandType : String
  targets : List EntityId
  payload : Bytes

def freezeCommand (config : OutcomeConfig) (identity : CommandIdentity) (metadata : Metadata) :
    Except Error PendingCommand := do
  checkTargets identity.targets
  let commandId ← requireCommandId metadata
  PendingCommand.new config commandId
    ⟨identity.commandType, identity.targets, identity.payload, principal metadata⟩ metadata

section Execute

variable [DecidableEq κ] (E : Env) (config : TransactionConfig)

def prepareAndFinish (pending : PendingCommand) (prepare : Prepare A) :
    Program (Except Failed (CommandOutcome Unit)) :=
  (prepare.run config { Transaction.new with command := some pending } []).bind fun
    | (.error error, tx) =>
      .done (.error ⟨error, if tx.isReadFailure E error then .deciding else .internal⟩)
    | (.ok decision, tx) => inPhase .committing (tx.finish E config decision)

def attemptTransaction (pending : PendingCommand) (prepare : Prepare A) :
    Program (Except Failed (CommandOutcome Unit)) :=
  andThen (inPhase .deciding (preCheck pending.commandId pending.digest)) fun
    | some stored => .done (.ok (.replay stored))
    | none => prepareAndFinish E config pending prepare

def executeTransaction (identity : CommandIdentity) (metadata : Metadata)
    (prepare : Prepare A) : Program (Except Error (CommandOutcome Unit)) :=
  match config.outcomes with
  | none =>
    .done (.error (.invalidConfig "command outcomes are not enabled; call with_outcomes"))
  | some outcomes =>
    check (freezeCommand outcomes identity metadata) fun pending =>
      fenceAwareRetry E outcomes pending (attemptTransaction E config pending prepare)
        (fun retry => retry != .conflict)

end Execute

end EventStore
