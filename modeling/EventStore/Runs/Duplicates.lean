import EventStore.Memory.Refusals
import EventStore.Core.Transactions

/-!
Where `DuplicateCommand` comes from. A replay has seen the command IDs of the events it
read and no others; freezing, staging and projecting a command never fail with it.
-/
namespace EventStore

open Result

theorem mem_insertSeen {seen : List CommandId} {commandId : Option CommandId} {c : CommandId}
    (h : c ∈ Loaded.insertSeen seen commandId) : c ∈ seen ∨ commandId = some c := by
  unfold Loaded.insertSeen at h
  split at h
  · exact .inl h
  · rename_i found hfound
    obtain ⟨hsome, -⟩ := Option.filter_eq_some_iff.mp hfound
    rcases List.mem_cons.mp h with rfl | h
    · exact .inr hsome
    · exact .inl h

theorem metadata_upcastEvent {upcasters : List Upcaster} {event migrated : SerializedEvent}
    (h : upcastEvent upcasters event = .ok migrated) :
    migrated.sequence = event.sequence ∧ migrated.metadata = event.metadata := by
  induction upcasters generalizing event with
  | nil => cases h; exact ⟨rfl, rfl⟩
  | cons upcaster upcasters ih =>
    unfold upcastEvent at h
    split at h
    · split at h
      · cases h
      · rename_i next hnext
        obtain ⟨hsequence, hmetadata⟩ := upcaster.keeps event next hnext
        obtain ⟨hs, hm⟩ := ih h
        exact ⟨hs.trans hsequence, hm.trans hmetadata⟩
    · exact ih h

theorem upcastEvent_error {upcasters : List Upcaster} {event : SerializedEvent} {error : Error}
    (h : upcastEvent upcasters event = .error error) :
    ∃ eventType version stage source, error = .replay eventType version stage source := by
  induction upcasters generalizing event with
  | nil => cases h
  | cons upcaster upcasters ih =>
    unfold upcastEvent at h
    split at h
    · split at h
      · cases h
        exact ⟨_, _, _, _, rfl⟩
      · exact ih h
    · exact ih h

def Aggregate.read (A : Aggregate) (stored : SerializedEvent) : Except Error A.Event :=
  upcastEvent A.upcasters stored >>= A.decodeEvent

variable {A : Aggregate}

theorem Aggregate.read_error {stored : SerializedEvent} {error : Error}
    (h : A.read stored = .error error) :
    ∃ eventType version stage source, error = .replay eventType version stage source := by
  rcases bind_eq_error.mp h with h | ⟨migrated, -, h⟩
  · exact upcastEvent_error h
  · unfold Aggregate.decodeEvent at h
    split at h <;> cases h
    exact ⟨_, _, _, _, rfl⟩

/-- The handle once an event is replayed. -/
def Loaded.after (loaded : Loaded A) (stored : SerializedEvent) (event : A.Event) : Loaded A :=
  { loaded with
    aggregate := A.apply loaded.aggregate event
    sequence := stored.sequence
    seenCommandIds := Loaded.insertSeen loaded.seenCommandIds stored.metadata.commandId }

/-- Upcasters keep the sequence and the metadata, so that a replay takes the stored ones. -/
theorem Loaded.replay_eq (loaded : Loaded A) (stored : SerializedEvent) :
    loaded.replay stored = if stored.sequence ≠ EventSequence.next loaded.sequence then
      .error (.sequenceGap loaded.entityId loaded.sequence stored.sequence)
      else (A.read stored).map (loaded.after stored) := by
  unfold Loaded.replay Aggregate.read
  split
  · rfl
  · cases hmigrated : upcastEvent A.upcasters stored with
    | error error => rfl
    | ok migrated =>
      obtain ⟨hsequence, hmetadata⟩ := metadata_upcastEvent hmigrated
      cases htyped : A.decodeEvent migrated with
      | error error => simp [htyped, Except.map, bind, Except.bind]
      | ok typed =>
        simp [htyped, Except.map, bind, Except.bind, pure, Except.pure, Loaded.after, hsequence,
          hmetadata]

theorem Loaded.replay_eq_ok {loaded next : Loaded A} {stored : SerializedEvent} :
    loaded.replay stored = .ok next ↔ stored.sequence = EventSequence.next loaded.sequence ∧
      ∃ event, A.read stored = .ok event ∧ loaded.after stored event = next := by
  rw [Loaded.replay_eq]
  split
  · rename_i hgap
    exact ⟨by rintro ⟨⟩, fun h => absurd h.1 hgap⟩
  · rename_i hplace
    rw [map_eq_ok]
    exact ⟨fun h => ⟨not_not.mp hplace, h⟩, fun h => h.2⟩

theorem Loaded.replayAll_error {loaded : Loaded A} {events : List SerializedEvent} {error : Error}
    (h : loaded.replayAll events = .error error) :
    (∃ entityId last got, error = .sequenceGap entityId last got) ∨
      ∃ eventType version stage source, error = .replay eventType version stage source := by
  induction events generalizing loaded with
  | nil => cases h
  | cons event events ih =>
    rcases bind_eq_error.mp h with hreplay | ⟨next, -, h⟩
    · rw [Loaded.replay_eq] at hreplay
      split at hreplay
      · cases hreplay
        exact .inl ⟨_, _, _, rfl⟩
      · cases hread : A.read event with
        | error unread =>
          rw [hread] at hreplay
          cases hreplay
          exact .inr (Aggregate.read_error hread)
        | ok typed =>
          rw [hread] at hreplay
          cases hreplay
    · exact ih h

theorem Loaded.replayAll_kept {loaded loaded' : Loaded A} {events : List SerializedEvent}
    (h : loaded.replayAll events = .ok loaded') :
    loaded'.entityId = loaded.entityId ∧ loaded'.snapshotSequence = loaded.snapshotSequence := by
  induction events generalizing loaded with
  | nil => cases h; exact ⟨rfl, rfl⟩
  | cons event events ih =>
    simp only [Loaded.replayAll, bind_eq_ok] at h
    obtain ⟨next, hnext, h⟩ := h
    obtain ⟨-, typed, -, rfl⟩ := Loaded.replay_eq_ok.mp hnext
    have hkept := ih h
    exact hkept

theorem mem_seen_replayAll {loaded loaded' : Loaded A} {events : List SerializedEvent}
    (h : loaded.replayAll events = .ok loaded') {c : CommandId} (hc : c ∈ loaded'.seenCommandIds) :
    c ∈ loaded.seenCommandIds ∨ ∃ event ∈ events, event.metadata.commandId = some c := by
  induction events generalizing loaded with
  | nil => cases h; exact .inl hc
  | cons event events ih =>
    simp only [Loaded.replayAll, bind_eq_ok] at h
    obtain ⟨next, hnext, h⟩ := h
    obtain ⟨-, typed, -, rfl⟩ := Loaded.replay_eq_ok.mp hnext
    rcases ih h with hseen | ⟨later, hlater, hid⟩
    · rcases mem_insertSeen hseen with hseen | hid
      · exact .inl hseen
      · exact .inr ⟨event, by simp, hid⟩
    · exact .inr ⟨later, by simp [hlater], hid⟩

theorem replayAll_notDuplicate (A : Aggregate) (loaded : Loaded A) (events : List SerializedEvent) :
    NotDuplicate (loaded.replayAll events) := by
  intro error h
  rcases Loaded.replayAll_error h with ⟨_, _, _, rfl⟩ | ⟨_, _, _, _, rfl⟩ <;> rfl

theorem start_notDuplicate (A : Aggregate) (entityId : EntityId)
    (snapshot : Option SerializedSnapshot) :
    NotDuplicate (Loaded.start entityId snapshot : Except Error (Loaded A)) := by
  unfold Loaded.start
  split
  · simp
  · split <;> simp [Error.isDuplicateCommand]

theorem seen_start {entityId : EntityId} {snapshot : Option SerializedSnapshot} {loaded : Loaded A}
    (h : Loaded.start entityId snapshot = .ok loaded) : loaded.seenCommandIds = [] := by
  unfold Loaded.start at h
  split at h
  · cases h; rfl
  · split at h <;> cases h
    rfl

section Stage

variable {A : Aggregate}

@[simp] theorem serializeEvents_notDuplicate (A : Aggregate) (entityId : EntityId) (sequence : Int)
    (metadata : Metadata) (events : List A.Event) :
    NotDuplicate (serializeEvents A entityId sequence metadata events) := by
  induction events generalizing sequence with
  | nil => simp [serializeEvents]
  | cons event events ih =>
    unfold serializeEvents
    split
    · simp [Error.isDuplicateCommand]
    · simp [serializeEvent, ih, Error.isDuplicateCommand]

@[simp] theorem encodeWhen_notDuplicate (A : Aggregate) (needed : Bool) (state : A.State) :
    NotDuplicate (encodeWhen A needed state) := by
  unfold encodeWhen
  split <;> simp [Error.isDuplicateCommand]

@[simp] theorem dueSnapshot_notDuplicate (A : Aggregate) (due : Bool) (entityId : EntityId)
    (snapshotSequence : Int) (serialized : List SerializedEvent) (state : Bytes) :
    NotDuplicate (dueSnapshot A due entityId snapshotSequence serialized state) := by
  unfold dueSnapshot
  split
  · simp [NewSnapshot.withinBudget, snapshotFits, snapshotCommitSize]
  · simp

@[simp] theorem runProjectors_notDuplicate (entityId : EntityId) (state : A.State)
    (events : List A.Event)
    (projectors : List (EntityId → A.State → List A.Event → Except String (List Empty))) :
    NotDuplicate (StoreConfig.runProjectors entityId state events projectors) := by
  induction projectors with
  | nil => simp [StoreConfig.runProjectors]
  | cons projector projectors ih =>
    unfold StoreConfig.runProjectors
    split <;> simp [ih, Error.isDuplicateCommand]

theorem checkEmitted_notDuplicate (projector : CommitProjector) (commit : CommitView)
    (views : List ProjectedView) : NotDuplicate (checkEmitted projector commit views) := by
  induction views with
  | nil => simp [checkEmitted]
  | cons view views ih =>
    have howner : NotDuplicate (checkOwner view commit projector.history) := by
      unfold checkOwner
      split <;> simp [invalidView, Error.isDuplicateCommand]
    simp only [checkEmitted, avoids_bind, howner, true_and]
    intro _ _
    split <;> simp [ih, checkUnreserved, Error.isDuplicateCommand]

@[simp] theorem projectApplication_notDuplicate (projectors : List CommitProjector)
    (commit : CommitView) : NotDuplicate (projectApplication projectors commit) := by
  have hone : ∀ projector index, NotDuplicate (projectOne commit projector index) := by
    intro projector index
    unfold projectOne
    split
    · simp [Error.isDuplicateCommand]
    · simp [checkEmitted_notDuplicate]
  have heach : ∀ projectors, NotDuplicate (projectEach commit projectors) := by
    intro projectors
    induction projectors with
    | nil => simp [projectEach]
    | cons projector projectors ih => simp [projectEach, hone, ih]
  unfold projectApplication projectCommit
  split
  · simp [Error.isDuplicateCommand]
  · split <;> simp [projectWith, heach]

@[simp] theorem stage_notDuplicate (config : StoreConfig A) (loaded : Loaded A)
    (events : List A.Event) (stamped : Metadata) :
    NotDuplicate (config.stage loaded events stamped) := by
  have hproject : ∀ commitId entityId serialized state,
      NotDuplicate (config.projectStage commitId entityId serialized state) := by
    intro commitId entityId serialized state
    unfold StoreConfig.projectStage
    split <;> simp
  simp [StoreConfig.stage, hproject]

end Stage

variable {pending : PendingCommand}

section Freeze

@[simp] theorem digest_notDuplicate (config : OutcomeConfig) (input : DigestInput) :
    NotDuplicate (config.digest input) := by
  simp only [OutcomeConfig.digest, avoids_bind, checkText_notDuplicate, true_and]
  intro _ _ _ _
  split <;> simp [Error.isDuplicateCommand]

@[simp] theorem checkTargets_notDuplicate (targets : List EntityId) :
    NotDuplicate (checkTargets targets) := by
  induction targets with
  | nil => simp [checkTargets]
  | cons target targets ih => simp [checkTargets, ih]

@[simp] theorem requireCommandId_notDuplicate (metadata : Metadata) :
    NotDuplicate (requireCommandId metadata) := by
  unfold requireCommandId
  split <;> simp [checkMetadata, Error.isDuplicateCommand]

variable {metadata : Metadata}

theorem requireCommandId_ok {commandId : CommandId}
    (h : requireCommandId metadata = .ok commandId) :
    metadata.commandId = some commandId ∧ checkCommandId commandId = .ok () := by
  unfold requireCommandId at h
  split at h
  · cases h
  · rename_i found hfound
    obtain ⟨hsome, -⟩ := Option.filter_eq_some_iff.mp hfound
    simp only [seq_eq_ok] at h
    obtain ⟨hcheck, -, h⟩ := h
    cases h
    exact ⟨hsome, hcheck⟩

theorem freeze_notDuplicate (outcomes : OutcomeConfig) (entityId : EntityId) (command : A.Command)
    (metadata : Metadata) :
    NotDuplicate (StoreConfig.freeze outcomes entityId command metadata) := by
  have hinput : NotDuplicate (StoreConfig.canonicalInput entityId command metadata) := by
    unfold StoreConfig.canonicalInput
    split <;> simp [Error.isDuplicateCommand]
  simp [StoreConfig.freeze, hinput, PendingCommand.new]

theorem freezeCommand_notDuplicate (outcomes : OutcomeConfig) (identity : CommandIdentity)
    (metadata : Metadata) : NotDuplicate (freezeCommand outcomes identity metadata) := by
  simp [freezeCommand, PendingCommand.new]

theorem freeze_ok {outcomes : OutcomeConfig} {entityId : EntityId} {command : A.Command}
    (h : StoreConfig.freeze outcomes entityId command metadata = .ok pending) :
    pending.metadata = metadata ∧ metadata.commandId = some pending.commandId ∧
      checkCommandId pending.commandId = .ok () := by
  simp only [StoreConfig.freeze, PendingCommand.new, bind_eq_ok] at h
  obtain ⟨-, -, commandId, hid, input, -, digest, -, h⟩ := h
  cases h
  exact ⟨rfl, requireCommandId_ok hid⟩

theorem freezeCommand_ok {outcomes : OutcomeConfig} {identity : CommandIdentity}
    (h : freezeCommand outcomes identity metadata = .ok pending) :
    pending.metadata = metadata ∧ metadata.commandId = some pending.commandId ∧
      checkCommandId pending.commandId = .ok () := by
  simp only [freezeCommand, PendingCommand.new, bind_eq_ok] at h
  obtain ⟨-, -, commandId, hid, digest, -, h⟩ := h
  cases h
  exact ⟨rfl, requireCommandId_ok hid⟩

end Freeze

theorem stampCommitId_yields (metadata : Metadata) :
    (stampCommitId metadata).Yields fun stamped => stamped.commandId = metadata.commandId := by
  unfold stampCommitId
  split
  · rfl
  · split
    · exact fun _ => rfl
    · rfl

section Transactions

variable {κ : Type} {A : κ → Aggregate}

namespace Transaction

@[simp] theorem checkOpen_notDuplicate (tx : Transaction A) : NotDuplicate tx.checkOpen := by
  simp [checkOpen, Error.isDuplicateCommand]

@[simp] theorem checkUnread_notDuplicate (tx : Transaction A) (entityId : EntityId) :
    NotDuplicate (tx.checkUnread entityId) := by
  simp [checkUnread, Error.isDuplicateCommand]

theorem readLoaded_notDuplicate {kind : κ} (tx : Transaction A) (loaded : Loaded (A kind)) :
    NotDuplicate (tx.readLoaded loaded) := by
  simp [readLoaded]

theorem stageStream_notDuplicate (config : TransactionConfig) (tx : Transaction A) (index : Nat)
    (stream : StreamState A) (events : List (A stream.kind).Event) :
    NotDuplicate (stageStream config tx index stream events).1 := by
  unfold stageStream
  split
  · simp
  · split
    · rename_i error h
      simpa using serializeEvents_notDuplicate _ _ _ _ _ error h
    · simp only
      split
      · rename_i error h
        have hderived : ∀ serialized aggregate,
            NotDuplicate (stageDerived config stream serialized aggregate) := by
          simp [stageDerived, deriveStage]
        simpa using hderived _ _ error h
      · simp

theorem append_notDuplicate [DecidableEq κ] (config : TransactionConfig) (tx : Transaction A)
    (kind : κ) (index : Nat) (events : List (A kind).Event) :
    NotDuplicate (tx.append config kind index events).1 := by
  unfold append
  split
  · simp [Error.isDuplicateCommand]
  · split
    · split
      · rename_i error h
        have : NotDuplicate (do tx.checkOpen; refuse tx.poisoned .transactionPoisoned :
            Except Error Unit) := by simp [Error.isDuplicateCommand]
        simpa using this error h
      · exact stageStream_notDuplicate config tx index _ _
    · simp [Error.isDuplicateCommand]

theorem fence_notDuplicate (tx : Transaction A) (added : ReadFence) :
    NotDuplicate (tx.fence added).1 := by
  unfold fence
  split
  · rename_i error h
    simpa using tx.checkOpen_notDuplicate error h
  · split <;> simp

theorem expect_notDuplicate (config : TransactionConfig) (tx : Transaction A)
    (entityId : EntityId) (head : Int) : NotDuplicate (tx.expect config entityId head).1 := by
  have hcheck : NotDuplicate (tx.checkExpect config entityId head) := by
    simp only [checkExpect, avoids_bind, checkOpen_notDuplicate, avoids_refuse, true_and,
      Error.isDuplicateCommand, implies_true]
    intro _ _ _ _ _ _
    split <;> simp [Error.isDuplicateCommand]
  unfold expect
  split
  · rename_i error h
    simpa using hcheck error h
  · simp

theorem takeCommand_notDuplicate (config : TransactionConfig) (tx : Transaction A) :
    NotDuplicate (tx.takeCommand config) := by
  simp only [takeCommand, avoids_bind, checkOpen_notDuplicate, avoids_refuse, true_and,
    Error.isDuplicateCommand, implies_true]
  intro _ _ _ _
  split <;> simp [Error.isDuplicateCommand]

variable {config : TransactionConfig}

theorem takeCommand_ok {tx : Transaction A} (h : tx.takeCommand config = .ok pending) :
    tx.command = some pending := by
  simp only [takeCommand, seq_eq_ok] at h
  obtain ⟨-, -, h⟩ := h
  split at h
  · rename_i hcommand
    cases h
    exact hcommand
  · cases h

theorem checkRecordable_ok {tx : Transaction A} (h : tx.checkRecordable config = .ok pending) :
    tx.command = some pending := by
  simp only [checkRecordable, bind_eq_ok] at h
  obtain ⟨taken, htaken, -, -, -, -, h⟩ := h
  cases h
  exact takeCommand_ok htaken

def Unseen (tx : Transaction A) (commandId : CommandId) : Prop :=
  ∀ stream ∈ tx.streams, commandId ∉ stream.loaded.seenCommandIds

theorem checkUnseen_notDuplicate {tx : Transaction A} {commandId : CommandId}
    (h : tx.Unseen commandId) : NotDuplicate (tx.checkUnseen commandId) := by
  simp only [checkUnseen, avoids_refuse]
  intro hany
  obtain ⟨stream, hmem, hsaw⟩ := List.any_eq_true.mp hany
  simp only [StreamState.saw, List.contains_iff_mem] at hsaw
  exact absurd hsaw (h stream hmem)

theorem checkRecordable_notDuplicate {tx : Transaction A} (hcommand : tx.command = some pending)
    (h : tx.Unseen pending.commandId) : NotDuplicate (tx.checkRecordable config) := by
  simp only [checkRecordable, avoids_bind, takeCommand_notDuplicate, avoids_refuse, true_and,
    Error.isDuplicateCommand, implies_true, avoids_pure, and_true]
  intro taken htaken _ _
  obtain rfl : pending = taken := by simpa [hcommand] using takeCommand_ok htaken
  exact checkUnseen_notDuplicate h

theorem staleVersions_notDuplicate (tx : Transaction A) (expected : List (EntityId × Int)) :
    NotDuplicate (tx.staleVersions expected) := by
  induction expected with
  | nil => simp [staleVersions]
  | cons first rest ih =>
    unfold staleVersions
    split <;> simp [ih, Error.isDuplicateCommand]

theorem staleRejection_notDuplicate {tx : Transaction A} (hcommand : tx.command = some pending)
    (h : tx.Unseen pending.commandId) : NotDuplicate (tx.staleRejection config) := by
  unfold staleRejection
  split
  · simp
  · simp only [avoids_bind, avoids_discard, checkRecordable_notDuplicate hcommand h,
      staleVersions_notDuplicate, true_and]
    intro _ _ _ _
    split <;> simp

theorem build_notDuplicate {tx : Transaction A} {stamped : Metadata}
    (h : ∀ c, stamped.commandId = some c → tx.Unseen c) :
    NotDuplicate (tx.build config stamped) := by
  have hseen : NotDuplicate (tx.checkStamped stamped) := by
    unfold checkStamped
    split
    · simp
    · rename_i c hc
      exact checkUnseen_notDuplicate (h c (Option.filter_eq_some_iff.mp hc).1)
  simp [build, hseen]

end Transaction

end Transactions

end EventStore
