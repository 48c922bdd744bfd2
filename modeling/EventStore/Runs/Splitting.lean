import EventStore.Runs.Folding
import EventStore.Runs.Schedule
import EventStore.Core.Appends

/-!
What a stream of a transaction holds after any appends: what it derives from all the events
appended, so that the appends come to one, as long as they agree on the projectors. An append
without events names its projectors in vain.
-/
namespace EventStore

open Result

section Serializing

variable {A : Aggregate} {entityId : EntityId} {sequence : Int} {metadata : Metadata}

variable {stored : List SerializedEvent}

theorem serializeEvents_cons_ok {event : A.Event} {events : List A.Event} :
    serializeEvents A entityId sequence metadata (event :: events) = .ok stored ↔
      ∃ next one rest, EventSequence.checkedNext sequence = some next ∧
        serializeEvent A entityId next event metadata = .ok one ∧
        serializeEvents A entityId next metadata events = .ok rest ∧ one :: rest = stored := by
  rw [serializeEvents]
  cases EventSequence.checkedNext sequence with
  | none => simp
  | some next =>
    simp [bind_eq_ok, pure, Except.pure]

theorem serializeEvents_restamp {events : List A.Event} (other : Metadata)
    (h : serializeEvents A entityId sequence metadata events = .ok stored) :
    serializeEvents A entityId sequence other events = .ok (restamped other stored) := by
  induction events generalizing sequence stored with
  | nil =>
    cases h
    rfl
  | cons event events ih =>
    obtain ⟨next, one, rest, hnext, hone, hrest, rfl⟩ := serializeEvents_cons_ok.mp h
    exact serializeEvents_cons_ok.mpr
      ⟨next, _, _, hnext, serializeEvent_restamp other hone, ih hrest, rfl⟩

def sequenceAfter (sequence : Int) (stored : List SerializedEvent) : Int :=
  (stored.getLast?.map (·.sequence)).getD sequence

theorem sequenceAfter_cons (sequence : Int) (one : SerializedEvent)
    (rest : List SerializedEvent) :
    sequenceAfter sequence (one :: rest) = sequenceAfter one.sequence rest := by
  cases rest <;> simp [sequenceAfter, List.getLast?_cons]

theorem sequenceAfter_append (sequence : Int) (stored more : List SerializedEvent) :
    sequenceAfter sequence (stored ++ more) =
      sequenceAfter (sequenceAfter sequence stored) more := by
  induction stored generalizing sequence with
  | nil => rfl
  | cons one stored ih => rw [List.cons_append, sequenceAfter_cons, sequenceAfter_cons, ih]

theorem serializeEvents_append {events more : List A.Event} {rest : List SerializedEvent}
    (h : serializeEvents A entityId sequence metadata events = .ok stored)
    (hmore : serializeEvents A entityId (sequenceAfter sequence stored) metadata more = .ok rest) :
    serializeEvents A entityId sequence metadata (events ++ more) = .ok (stored ++ rest) := by
  induction events generalizing sequence stored with
  | nil =>
    cases h
    exact hmore
  | cons event events ih =>
    obtain ⟨next, one, tail, hnext, hone, htail, rfl⟩ := serializeEvents_cons_ok.mp h
    rw [sequenceAfter_cons, (serializeEvent_fields hone).1] at hmore
    exact serializeEvents_cons_ok.mpr ⟨next, one, _, hnext, hone, ih htail hmore, rfl⟩

theorem dueSnapshot_congr (A : Aggregate) (due : Bool) (entityId : EntityId)
    (snapshotSequence : Int) {other : List SerializedEvent} (state : Bytes)
    (h : stored.getLast?.map (·.sequence) = other.getLast?.map (·.sequence)) :
    dueSnapshot A due entityId snapshotSequence stored state =
      dueSnapshot A due entityId snapshotSequence other state := by
  unfold dueSnapshot
  cases due with
  | false => rfl
  | true =>
    cases hstored : stored.getLast? <;> cases hother : other.getLast? <;>
      simp_all

end Serializing

namespace Appends

variable {Op : Type} {A : Aggregate}

variable {interval : Nat}

namespace Transaction

/-- An append that returns staged its events with what they derive, or had none. -/
theorem stage_ok {tx tx' : Transaction Op} {read read' : Read A Op} {events : List A.Event}
    {named : List (Projector A Op)}
    (h : tx.stage read events named interval = (.ok (), read', tx')) :
    events = [] ∧ read' = read ∧ tx' = tx ∨
      events ≠ [] ∧ ∃ stream serialized operations snapshot state,
        tx.streams[read.index]? = some stream ∧
        serializeEvents A read.loaded.entityId read.loaded.sequence {} events = .ok serialized ∧
        tx.stageDerived (read.applied events) stream.events.length serialized events
          (read.projectorsOf named) interval = .ok (operations, snapshot, state) ∧
        read' = (read.applied events).appending named events serialized ∧
        tx' = tx.restage read.index stream serialized operations snapshot state := by
  unfold stage at h
  cases hcheck : tx.checkStage read named with
  | error error => simp [hcheck] at h
  | ok _ =>
    simp only [hcheck] at h
    by_cases hevents : events = []
    · simp only [hevents, List.isEmpty_nil, if_true, Prod.mk.injEq, true_and] at h
      exact .inl ⟨hevents, h.1.symm, h.2.symm⟩
    · rw [if_neg (by simpa using hevents)] at h
      cases hstream : tx.streams[read.index]? with
      | none => simp [hstream] at h
      | some stream =>
        cases hserialized : serializeEvents A read.loaded.entityId read.loaded.sequence {}
          events with
        | error error => simp [hstream, hserialized] at h
        | ok serialized =>
          simp only [hstream, hserialized] at h
          split at h
          · simp at h
          · rename_i operations snapshot state hderived
            simp only [Prod.mk.injEq, true_and] at h
            exact .inr ⟨hevents, stream, serialized, operations, snapshot, state, rfl, rfl,
              hderived, h.1.symm, h.2.symm⟩

/-- An append that fails either changed nothing or poisoned the transaction. -/
theorem stage_error {tx tx' : Transaction Op} {read read' : Read A Op} {events : List A.Event}
    {named : List (Projector A Op)} {error : Error}
    (h : tx.stage read events named interval = (.error error, read', tx')) :
    read' = read ∧ tx' = tx ∨ tx'.poisoned = true := by
  unfold stage at h
  split at h
  · simp only [Prod.mk.injEq] at h
    exact .inl ⟨h.2.1.symm, h.2.2.symm⟩
  · split at h
    · simp at h
    · split at h
      · simp only [Prod.mk.injEq] at h
        exact .inl ⟨h.2.1.symm, h.2.2.symm⟩
      · simp only [Prod.mk.injEq] at h
        exact .inl ⟨h.2.1.symm, h.2.2.symm⟩
      · split at h
        · simp only [Prod.mk.injEq] at h
          exact .inr (h.2.2 ▸ rfl)
        · simp at h

end Transaction

def appendAll (projectors : List (Projector A Op)) :
    List (List A.Event × Bool) → Read A Op → Transaction Op →
      Except Error (Read A Op × Transaction Op)
  | [], read, tx => .ok (read, tx)
  | (events, naming) :: calls, read, tx =>
    match tx.appendWith read events (if naming then projectors else []) with
    | (.error error, _, _) => .error error
    | (.ok (), read, tx) => appendAll projectors calls read tx

def eventsOf (calls : List (List A.Event × Bool)) : List A.Event := calls.flatMap (·.1)

/-- Whether an append with events names the projector set. -/
def names (calls : List (List A.Event × Bool)) : Bool :=
  calls.any fun call => !call.1.isEmpty && call.2

/-- What a stream holds once the events are appended. -/
structure Holds (loaded : Loaded A) (projectors : List (Projector A Op))
    (commitProjectors : List CommitProjector) (interval : Nat) (events : List A.Event)
    (stream : StreamState Op) : Prop where
  entityId : stream.entityId = loaded.entityId
  entityType : stream.entityType = A.entityType
  serialized : serializeEvents A loaded.entityId loaded.sequence {} events = .ok stream.events
  derived : events ≠ [] →
    let aggregate := events.foldl A.apply loaded.aggregate
    let due := decide (0 < snapshotEventsDue loaded.sequence events.length interval)
    runProjectors loaded.entityId aggregate events projectors = .ok stream.operations ∧
      ∃ encoded, encodeWhen A (due || !commitProjectors.isEmpty) aggregate = .ok encoded ∧
        dueSnapshot A due loaded.entityId loaded.snapshotSequence stream.events
          (encoded.getD .empty) = .ok stream.snapshot ∧
        stream.state = if commitProjectors.isEmpty then .empty else encoded.getD .empty

/-- The stream is the last one read, and the set known once an append with events named it. -/
structure Appended (loaded : Loaded A) (projectors : List (Projector A Op)) (start : Transaction Op)
    (events : List A.Event) (known : Bool) (read : Read A Op) (tx : Transaction Op) : Prop where
  index : read.index = start.streams.length
  base : read.baseSequence = loaded.sequence
  appended : read.appended = events
  set : read.projectors = if known && !projectors.isEmpty then some projectors else none
  commitProjectors : tx.commitProjectors = start.commitProjectors
  interval : tx.snapshotInterval = start.snapshotInterval
  streams : ∃ stream, tx.streams = start.streams ++ [stream] ∧
    read.loaded = { loaded with
      aggregate := events.foldl A.apply loaded.aggregate
      sequence := sequenceAfter loaded.sequence stream.events } ∧
    Holds loaded (if known then projectors else []) start.commitProjectors
      (A.snapshotInterval.getD start.snapshotInterval) events stream

theorem appended_of_readLoaded {start tx : Transaction Op} {loaded : Loaded A} {read : Read A Op}
    (projectors : List (Projector A Op)) (h : start.readLoaded loaded = .ok (read, tx)) :
    Appended loaded projectors start [] false read tx := by
  simp only [Transaction.readLoaded, bind_eq_ok] at h
  obtain ⟨-, -, -, -, h⟩ := h
  cases h
  exact ⟨rfl, rfl, rfl, rfl, rfl, rfl, _, rfl, rfl, rfl, rfl, rfl, fun h => absurd rfl h⟩

variable {known : Bool}

theorem Appended.projectorsOf {loaded : Loaded A} {projectors : List (Projector A Op)}
    {start tx : Transaction Op} {events : List A.Event} {read : Read A Op}
    (h : Appended loaded projectors start events known read tx) (naming : Bool) :
    read.projectorsOf (if naming then projectors else []) =
      if known || naming then projectors else [] := by
  rw [Read.projectorsOf, h.set]
  cases projectors <;> cases known <;> cases naming <;> rfl

theorem Holds.restage {loaded : Loaded A} {old projectors : List (Projector A Op)}
    (tx : Transaction Op) {prior events : List A.Event} {stream : StreamState Op} (read : Read A Op)
    {serialized : List SerializedEvent} {operations : List Op} {snapshot : Option NewSnapshot}
    {state : Bytes} (h : Holds loaded old tx.commitProjectors interval prior stream)
    (hbase : read.baseSequence = loaded.sequence) (happended : read.appended = prior)
    (hloaded : read.loaded = { loaded with
      aggregate := prior.foldl A.apply loaded.aggregate
      sequence := sequenceAfter loaded.sequence stream.events }) (hevents : events ≠ [])
    (hserialized : serializeEvents A read.loaded.entityId read.loaded.sequence {} events =
      .ok serialized)
    (hderived : tx.stageDerived (read.applied events) stream.events.length serialized events
      projectors interval = .ok (operations, snapshot, state)) :
    Holds loaded projectors tx.commitProjectors interval (prior ++ events)
      { stream with events := stream.events ++ serialized, snapshot, operations, state } := by
  rw [hloaded] at hserialized
  have hwhole := serializeEvents_append h.serialized hserialized
  have hlength : stream.events.length + serialized.length = (prior ++ events).length := by
    rw [← List.length_append]
    exact (serializeEvents_fields hwhole).2.1
  have hlast : serialized.getLast?.map (·.sequence) =
      (stream.events ++ serialized).getLast?.map (·.sequence) := by
    have hne : serialized ≠ [] := by
      intro hnil
      have := (serializeEvents_fields hserialized).2.1
      rw [hnil] at this
      exact hevents (List.length_eq_zero_iff.mp this.symm)
    rw [List.getLast?_append_of_ne_nil _ hne]
  refine ⟨h.entityId, h.entityType, hwhole, fun _ => ?_⟩
  simp only [Transaction.stageDerived, deriveStage, bind_eq_ok] at hderived
  obtain ⟨ops, hops, _, ⟨encoded, hencoded, snap, hsnap, hresult⟩, hderived⟩ := hderived
  cases hresult
  cases hderived
  simp only [Read.applied, hloaded, hbase, happended, hlength, ← List.foldl_append]
    at hops hencoded hsnap
  refine ⟨hops, encoded, hencoded, ?_, rfl⟩
  rw [← dueSnapshot_congr A _ _ _ _ hlast]
  exact hsnap

/-- One append keeps what the transaction and the handle stand for. -/
theorem Appended.step {loaded : Loaded A} {projectors : List (Projector A Op)}
    {start tx tx' : Transaction Op} {prior events : List A.Event} {naming : Bool}
    {read read' : Read A Op} (h : Appended loaded projectors start prior known read tx)
    (hstage : tx.appendWith read events (if naming then projectors else []) =
      (.ok (), read', tx')) :
    Appended loaded projectors start (prior ++ events) (known || !events.isEmpty && naming)
      read' tx' := by
  obtain ⟨stream, hstreams, hloaded, hholds⟩ := h.streams
  obtain ⟨rfl, rfl, rfl⟩ | ⟨hevents, stream', serialized, operations, snapshot, state, hstream,
    hserialized, hderived, rfl, rfl⟩ := Transaction.stage_ok hstage
  · simpa using h
  have hnonempty : (!events.isEmpty && naming) = naming := by
    simp [hevents]
  rw [h.index, hstreams, List.getElem?_concat_length, Option.some.injEq] at hstream
  subst hstream
  rw [h.projectorsOf, h.interval] at hderived
  rw [← h.commitProjectors] at hholds
  have hrestaged := hholds.restage _ _ h.base h.appended hloaded hevents hserialized hderived
  rw [h.commitProjectors] at hrestaged
  rw [hnonempty]
  refine ⟨h.index, h.base, ?_, ?_, h.commitProjectors, h.interval, _, ?_, ?_, hrestaged⟩
  · simp [Read.appending, Read.applied, h.appended]
  · simp only [Read.appending, Read.applied, h.set]
    cases projectors <;> cases known <;> cases naming <;> rfl
  · simp [Transaction.restage, hstreams, h.index]
  · simp only [Read.appending, Read.applied, hloaded, List.foldl_append, sequenceAfter_append]
    rfl

/-- A run of appends comes to all their events, under the set that one with events named. -/
theorem Appended.appendAll {loaded : Loaded A} {projectors : List (Projector A Op)}
    {start tx tx' : Transaction Op} {prior : List A.Event} {read read' : Read A Op}
    {calls : List (List A.Event × Bool)} (h : Appended loaded projectors start prior known read tx)
    (hrun : appendAll projectors calls read tx = .ok (read', tx')) :
    Appended loaded projectors start (prior ++ eventsOf calls) (known || names calls)
      read' tx' := by
  induction calls generalizing prior known read tx with
  | nil =>
    cases hrun
    simpa [eventsOf, names] using h
  | cons call calls ih =>
    obtain ⟨events, naming⟩ := call
    rw [Appends.appendAll] at hrun
    split at hrun
    · cases hrun
    · rename_i read'' tx'' hstage
      have := ih (h.step hstage) hrun
      simpa [eventsOf, names, List.append_assoc, Bool.or_assoc] using this

variable {stamped : Metadata}

namespace Transaction

theorem prepare_ok {tx : Transaction Op} {commit : TransactionCommit Op}
    (h : tx.prepare stamped = .ok commit) :
    commit.streams = (tx.written.map fun stream =>
        { entityId := stream.entityId
          events := stampedEvents stamped stream
          snapshot := stream.snapshot }) ∧
      commit.operations =
        (tx.streams.filter fun stream => !stream.events.isEmpty).flatMap (·.operations) ∧
      projectApplication tx.commitProjectors ⟨stamped.commitId,
        if tx.commitProjectors.isEmpty then []
        else tx.written.map fun stream =>
          .new stream.entityId stream.entityType (stampedEvents stamped stream) stream.state⟩ =
        .ok commit.views := by
  simp only [prepare, bind_eq_ok] at h
  obtain ⟨-, -, -, -, -, -, views, hviews, h⟩ := h
  cases h
  exact ⟨rfl, rfl, hviews⟩

theorem filter_written {tx start : Transaction Op} {stream : StreamState Op}
    (hstreams : tx.streams = start.streams ++ [stream])
    (hstart : ∀ other ∈ start.streams, other.events = []) :
    (tx.streams.filter fun stream => !stream.events.isEmpty) =
      if stream.events = [] then [] else [stream] := by
  have hnone : (start.streams.filter fun stream => !stream.events.isEmpty) = [] := by
    rw [List.filter_eq_nil_iff]
    intro other hother
    simp [hstart other hother]
  rw [hstreams, List.filter_append, hnone]
  by_cases h : stream.events = [] <;> simp [h]

end Transaction

/-- What a store stages for the whole list, up to the operations of its projectors. -/
theorem Holds.stage {loaded : Loaded A} {known : List (Projector A Op)}
    (projectors : List (Projector A Op)) {commitProjectors : List CommitProjector}
    {snapshotInterval : Nat} {events : List A.Event} {stream : StreamState Op}
    {views : List ProjectedView}
    (h : Holds loaded known commitProjectors (A.snapshotInterval.getD snapshotInterval) events
      stream) (hevents : events ≠ [])
    (hviews : projectApplication commitProjectors ⟨stamped.commitId,
      if commitProjectors.isEmpty then []
      else [.new stream.entityId stream.entityType (Transaction.stampedEvents stamped stream)
        stream.state]⟩ = .ok views) :
    ∃ final : Loaded A,
      final.aggregate = events.foldl A.apply loaded.aggregate ∧
      final.sequence = sequenceAfter loaded.sequence stream.events ∧
      (⟨snapshotInterval, projectors, commitProjectors⟩ : Store A Op).stage loaded events stamped =
        (runProjectors loaded.entityId (events.foldl A.apply loaded.aggregate) events
          projectors).map fun operations =>
            (final, { entityId := loaded.entityId
                      events := Transaction.stampedEvents stamped stream
                      snapshot := stream.snapshot
                      operations
                      views }) := by
  have hderived := h.derived hevents
  dsimp only at hderived
  obtain ⟨-, encoded, hencoded, hsnapshot, hstate⟩ := hderived
  have hserialized := serializeEvents_restamp stamped h.serialized
  have hlast : (restamped stamped stream.events).getLast?.map (·.sequence) =
      stream.events.getLast?.map (·.sequence) := by
    rw [restamped, List.getLast?_map, Option.map_map]
    rfl
  have hprojected :
      (⟨snapshotInterval, projectors, commitProjectors⟩ : Store A Op).config.projectStage
      stamped.commitId loaded.entityId (restamped stamped stream.events) (encoded.getD .empty) =
      .ok views := by
    unfold StoreConfig.projectStage
    cases commitProjectors with
    | nil => exact hviews
    | cons projector commitProjectors =>
      rw [h.entityId, h.entityType, hstate] at hviews
      exact hviews
  refine ⟨{ loaded with
    aggregate := events.foldl A.apply loaded.aggregate
    sequence := sequenceAfter loaded.sequence stream.events
    snapshotSequence := (stream.snapshot.map (·.sequence)).getD loaded.snapshotSequence
    seenCommandIds := Loaded.insertSeen loaded.seenCommandIds stamped.commandId }, rfl, rfl, ?_⟩
  rw [← dueSnapshot_congr A _ _ _ _ hlast] at hsnapshot
  cases hoperations : runProjectors loaded.entityId (events.foldl A.apply loaded.aggregate) events
    projectors with
  | error error =>
    exact bind_eq_error.mpr (.inr ⟨_, hserialized, bind_eq_error.mpr (.inl hoperations)⟩)
  | ok operations =>
    refine bind_eq_ok.mpr ⟨_, hserialized, bind_eq_ok.mpr ⟨_, hoperations, bind_eq_ok.mpr
      ⟨_, hencoded, bind_eq_ok.mpr ⟨_, hprojected, bind_eq_ok.mpr ⟨_, hsnapshot, ?_⟩⟩⟩⟩⟩
    rw [hlast]
    rfl

/-- A transaction's commit of one stream is what the store stages for its events. -/
def AsStaged (store : Store A Op) (loaded : Loaded A) (events : List A.Event) (stamped : Metadata)
    (read : Read A Op) (commit : TransactionCommit Op) : Prop :=
  events = [] ∧ commit.streams = [] ∧ commit.operations = [] ∨
    ∃ final one, store.stage loaded events stamped = .ok (final, one) ∧
      commit.streams = [{ one with operations := [], views := [] }] ∧
      commit.operations = one.operations ∧
      commit.views = one.views ∧
      read.loaded.aggregate = final.aggregate ∧
      read.loaded.sequence = final.sequence

theorem Appended.asStaged_iff {start tx : Transaction Op} {loaded : Loaded A}
    {projectors : List (Projector A Op)} {events : List A.Event} {read : Read A Op}
    {commit : TransactionCommit Op} (h : Appended loaded projectors start events known read tx)
    (hstart : ∀ other ∈ start.streams, other.events = [])
    (hprepare : tx.prepare stamped = .ok commit) :
    AsStaged ⟨start.snapshotInterval, projectors, start.commitProjectors⟩ loaded events stamped
        read commit ↔
      events = [] ∨ known = true ∨
        runProjectors loaded.entityId (events.foldl A.apply loaded.aggregate) events projectors =
          .ok [] := by
  obtain ⟨stream, hstreams, hloaded, hholds⟩ := h.streams
  obtain ⟨hcommits, hoperations, hviews⟩ := Transaction.prepare_ok hprepare
  have hlength := (serializeEvents_fields hholds.serialized).2.1
  have hwritten := Transaction.filter_written hstreams hstart
  rw [Transaction.written, hwritten] at hcommits hviews
  rw [hwritten] at hoperations
  by_cases hevents : events = []
  · have hnone : stream.events = [] := List.length_eq_zero_iff.mp (by rw [hlength, hevents]; rfl)
    rw [if_pos hnone] at hcommits hoperations
    exact iff_of_true (.inl ⟨hevents, hcommits, hoperations⟩) (.inl hevents)
  have hsome : stream.events ≠ [] := by
    intro hnone
    rw [hnone] at hlength
    exact hevents (List.length_eq_zero_iff.mp hlength.symm)
  rw [if_neg hsome] at hcommits hoperations hviews
  rw [h.commitProjectors] at hviews
  obtain ⟨final, haggregate, hsequence, hstage⟩ := hholds.stage projectors hevents hviews
  obtain ⟨hderived, -⟩ := hholds.derived hevents
  have hown : commit.operations = stream.operations := by simpa using hoperations
  constructor
  · rintro (⟨hnone, -⟩ | ⟨_, one, hone, -, hsame, -⟩)
    · exact .inl hnone
    rw [hstage] at hone
    obtain ⟨operations, hrun, hone⟩ := map_eq_ok.mp hone
    cases hone
    cases known with
    | true => exact .inr (.inl rfl)
    | false =>
      have hnone : [] = stream.operations := Except.ok.inj hderived
      rw [hown, ← hnone] at hsame
      exact .inr (.inr (hsame ▸ hrun))
  · intro hcase
    have hrun : runProjectors loaded.entityId (events.foldl A.apply loaded.aggregate) events
        projectors = .ok stream.operations := by
      cases known with
      | true => exact hderived
      | false =>
        have hnone : [] = stream.operations := Except.ok.inj hderived
        simpa [hevents, ← hnone] using hcase
    rw [hrun] at hstage
    refine .inr ⟨final, _, hstage, ?_, hown, rfl, ?_, ?_⟩
    · rw [hcommits, ← hholds.entityId]
      rfl
    · rw [haggregate, hloaded]
    · rw [hsequence, hloaded]

section Transactions

variable {κ : Type} {B : κ → Aggregate} {config : TransactionConfig} {kind : κ}
  {loaded : Loaded (B kind)} {stream : EventStore.StreamState B}

/-- A stream of a transaction without projectors, once the events are appended. -/
def Streamed (config : TransactionConfig) (loaded : Loaded (B kind)) (events : List (B kind).Event)
    (stream : EventStore.StreamState B) : Prop :=
  ∃ held snapshot state, stream = ⟨kind, loaded.sequence, held, snapshot, state, { loaded with
      aggregate := events.foldl (B kind).apply loaded.aggregate
      sequence := sequenceAfter loaded.sequence held }⟩ ∧
    Holds loaded [] config.commitProjectors
      ((B kind).snapshotInterval.getD config.snapshotInterval) events
      (⟨loaded.entityId, (B kind).entityType, loaded.sequence, loaded.seenCommandIds, held,
        snapshot, [], state⟩ : StreamState Empty)

theorem Streamed.append [DecidableEq κ] {tx tx' : EventStore.Transaction B} {index : Nat}
    {prior added : List (B kind).Event} (h : Streamed config loaded prior stream)
    (hstream : tx.streams[index]? = some stream)
    (happend : tx.append config kind index added = (.ok (), tx')) :
    ∃ stream', tx'.streams = tx.streams.set index stream' ∧
      Streamed config loaded (prior ++ added) stream' := by
  obtain ⟨_, _, heq⟩ | ⟨rfl, heq⟩ | ⟨found, hkind, stream', hfound, hstages, heq⟩ :=
    EventStore.Transaction.append_cases config tx kind index added
  · cases heq.symm.trans happend
  · cases heq.symm.trans happend
    obtain ⟨hlt, rfl⟩ := List.getElem?_eq_some_iff.mp hstream
    exact ⟨_, (List.set_getElem_self hlt).symm, by rwa [List.append_nil]⟩
  · cases heq.symm.trans happend
    cases hfound.symm.trans hstream
    obtain ⟨held, snapshot, state, rfl, hholds⟩ := h
    cases hstages with
    | @staged serialized snapshot state hevents hserialized hderived =>
      let tx : Transaction Empty :=
        ⟨0, config.snapshotInterval, [], [], config.commitProjectors, false, false, false⟩
      have hrestaged := hholds.restage tx ⟨0, index, _, loaded.sequence, prior, none⟩ rfl rfl rfl
        hevents hserialized (show _ = Except.ok (([] : List Empty), snapshot, state) from
          bind_eq_ok.mpr ⟨[], (rfl : runProjectors _ _ _ [] = _),
            bind_eq_ok.mpr ⟨_, hderived, rfl⟩⟩)
      refine ⟨_, rfl, held ++ serialized, snapshot, state, ?_, hrestaged⟩
      simp only [EventStore.Transaction.staged, List.foldl_append, sequenceAfter_append]
      rfl

def appendEach [DecidableEq κ] (config : TransactionConfig) (kind : κ) (index : Nat)
    (tx : EventStore.Transaction B) (calls : List (List (B kind).Event)) :
    Except Error (EventStore.Transaction B) :=
  calls.foldlM (fun tx events => (tx.append config kind index events).1.map fun _ =>
    (tx.append config kind index events).2) tx

theorem Streamed.appendEach [DecidableEq κ] {before : List (EventStore.StreamState B)}
    {tx tx' : EventStore.Transaction B} {prior : List (B kind).Event}
    {calls : List (List (B kind).Event)} (h : Streamed config loaded prior stream)
    (hstreams : tx.streams = before ++ [stream])
    (hrun : appendEach config kind before.length tx calls = .ok tx') :
    ∃ stream', tx'.streams = before ++ [stream'] ∧
      Streamed config loaded (prior ++ calls.flatten) stream' := by
  induction calls generalizing tx prior stream with
  | nil =>
    cases hrun
    exact ⟨stream, hstreams, by simpa using h⟩
  | cons added calls ih =>
    obtain ⟨next, happend, hrest⟩ := bind_eq_ok.mp hrun
    obtain ⟨_, hresult, rfl⟩ := map_eq_ok.mp happend
    obtain ⟨stream', hset, hstream'⟩ := h.append (by simp [hstreams]) (Prod.ext hresult rfl)
    rw [List.flatten_cons, ← List.append_assoc]
    exact ih hstream' (by simpa [hstreams] using hset) hrest

/-- What a transaction commits of one stream is what a store with its settings stages for the
events of all its appends. -/
theorem appendEach_asStaged [DecidableEq κ] {start tx tx' : EventStore.Transaction B}
    {calls : List (List (B kind).Event)} {commit : TransactionCommit Empty}
    (hstart : ∀ other ∈ start.streams, other.events = [])
    (hread : start.readLoaded loaded = .ok tx)
    (hrun : appendEach config kind start.streams.length tx calls = .ok tx')
    (hbuild : tx'.build config stamped = .ok commit) :
    calls.flatten = [] ∧ commit.streams = [] ∨ ∃ final one,
      (⟨config.snapshotInterval, config.catchUpThreshold, [], config.commitProjectors,
        config.outcomes⟩ : StoreConfig (B kind)).stage loaded calls.flatten stamped =
          .ok (final, one) ∧
        commit.streams = [{ one with operations := [], views := [] }] ∧
        commit.views = one.views := by
  have hfirst : tx.streams = start.streams ++ [.ofLoaded loaded] := by
    obtain ⟨-, hread⟩ := seq_eq_ok.mp hread
    obtain ⟨-, ⟨⟩⟩ := seq_eq_ok.mp hread
    rfl
  have hnone : Streamed config loaded [] (.ofLoaded loaded) :=
    ⟨[], none, .empty, rfl, rfl, rfl, rfl, fun h => absurd rfl h⟩
  obtain ⟨stream, hstreams, held, snapshot, state, rfl, hholds⟩ := hnone.appendEach hfirst hrun
  rw [List.nil_append] at hholds
  obtain ⟨hcommits, -, -, hviews⟩ := EventStore.Transaction.build_ok hbuild
  have hlength := (serializeEvents_fields hholds.serialized).2.1
  have hothers : (start.streams.filter fun stream => !stream.events.isEmpty) = [] :=
    List.filter_eq_nil_iff.mpr fun other hother => by simp [hstart other hother]
  rw [EventStore.Transaction.written, hstreams, List.filter_append, hothers] at hcommits hviews
  by_cases hevents : calls.flatten = []
  · obtain rfl : held = [] := List.length_eq_zero_iff.mp (by rw [hlength, hevents]; rfl)
    exact .inl ⟨hevents, hcommits⟩
  obtain ⟨event, more, rfl⟩ : ∃ event more, held = event :: more := by
    refine List.exists_cons_of_ne_nil ?_
    rintro rfl
    exact hevents (List.length_eq_zero_iff.mp hlength.symm)
  obtain ⟨final, -, -, hstage⟩ := hholds.stage [] hevents
    (show projectApplication config.commitProjectors ⟨stamped.commitId, _⟩ = .ok commit.views by
      cases hprojectors : config.commitProjectors <;> rw [hprojectors] at hviews <;> exact hviews)
  exact .inr ⟨final, _, hstage, hcommits, rfl⟩

end Transactions

namespace Transaction

/-- What a caller can do with a transaction before it ends. -/
inductive Step : Transaction Op → Transaction Op → Prop
  | readLoaded {tx tx' : Transaction Op} {B : Aggregate} {loaded : Loaded B} {read : Read B Op}
      (h : tx.readLoaded loaded = .ok (read, tx')) : Step tx tx'
  | stage (tx : Transaction Op) {B : Aggregate} (read : Read B Op) (events : List B.Event)
      (named : List (Projector B Op)) (interval : Nat) :
      Step tx (tx.stage read events named interval).2.2
  | fence {tx tx' : Transaction Op} {added : ReadFence} (h : tx.fence added = .ok tx') :
      Step tx tx'
  | withCommitProjector (tx : Transaction Op) (projector : CommitProjector) :
      Step tx (tx.withCommitProjector projector)
  | withSnapshotInterval (tx : Transaction Op) (interval : Nat) :
      Step tx { tx with snapshotInterval := interval }
  | finish (tx : Transaction Op) : Step tx { tx with finished := true }

theorem Step.poisoned {tx tx' : Transaction Op} (h : Step tx tx') (hp : tx.poisoned = true) :
    tx'.poisoned = true := by
  cases h with
  | readLoaded h =>
    simp only [Transaction.readLoaded, bind_eq_ok] at h
    obtain ⟨-, -, -, -, h⟩ := h
    cases h
    exact hp
  | stage read events named interval =>
    obtain ⟨result, read', tx', h⟩ :
        ∃ result read' tx', tx.stage read events named interval = (result, read', tx') :=
      ⟨_, _, _, rfl⟩
    rw [h]
    cases result with
    | error error =>
      obtain ⟨-, rfl⟩ | hpoisoned := stage_error h
      · exact hp
      · exact hpoisoned
    | ok _ =>
      obtain ⟨-, -, rfl⟩ | ⟨-, _, _, _, _, _, -, -, -, -, rfl⟩ := stage_ok h
      · exact hp
      · exact hp
  | fence h =>
    simp only [Transaction.fence, bind_eq_ok] at h
    obtain ⟨-, -, h⟩ := h
    split at h
    · cases h
      exact hp
    · cases h
      exact hp
  | withCommitProjector projector => exact hp
  | withSnapshotInterval interval => exact hp
  | finish => exact hp

/-- A poisoned transaction makes no commit, neither of its events nor of a rejection. -/
theorem not_commit_of_poisoned {tx : Transaction Op} (hp : tx.poisoned = true)
    (commit : TransactionCommit Op) (stamped : Metadata) (commandId : CommandId) :
    tx.prepare stamped ≠ .ok commit ∧ tx.rejection commandId ≠ .ok commit := by
  constructor
  · intro h
    obtain ⟨_, hclean, -⟩ := bind_eq_ok.mp h
    exact refuse_eq_ok.mp hclean hp
  · intro h
    obtain ⟨-, -, h⟩ := bind_eq_ok.mp h
    obtain ⟨_, hclean, -⟩ := bind_eq_ok.mp h
    exact refuse_eq_ok.mp hclean hp

/-- No commit comes of a transaction, whatever its caller still does. -/
def Barren (tx : Transaction Op) : Prop :=
  ∀ after, Relation.ReflTransGen Step tx after → ∀ commit stamped commandId,
    after.prepare stamped ≠ .ok commit ∧ after.rejection commandId ≠ .ok commit

theorem barren_of_poisoned {tx : Transaction Op} (hp : tx.poisoned = true) : tx.Barren := by
  intro after hafter
  have hpoisoned : after.poisoned = true := by
    induction hafter with
    | refl => exact hp
    | tail _ hstep ih => exact hstep.poisoned ih
  exact not_commit_of_poisoned hpoisoned

end Transaction

/-- Splitting events into appends leaves commit and state as staged exactly when an append with
events names the projector set, or it has no operations to lose. -/
theorem appendAll_asStaged_iff :
    (∀ (start tx tx' : Transaction Op) (loaded : Loaded A) (read read' : Read A Op)
      (projectors : List (Projector A Op)) (calls : List (List A.Event × Bool))
      (stamped : Metadata) (commit : TransactionCommit Op),
      (∀ other ∈ start.streams, other.events = []) →
      start.readLoaded loaded = .ok (read, tx) →
      appendAll projectors calls read tx = .ok (read', tx') →
      tx'.prepare stamped = .ok commit →
      (AsStaged ⟨start.snapshotInterval, projectors, start.commitProjectors⟩ loaded
          (eventsOf calls) stamped read' commit ↔
        eventsOf calls = [] ∨ names calls = true ∨
          runProjectors loaded.entityId ((eventsOf calls).foldl A.apply loaded.aggregate)
            (eventsOf calls) projectors = .ok [])) ∧
    ∀ (tx tx' : Transaction Op) (read read' : Read A Op) (events : List A.Event)
      (named : List (Projector A Op)) (interval : Nat) (error : Error),
      tx.stage read events named interval = (.error error, read', tx') →
      read' = read ∧ tx' = tx ∨ tx'.Barren := by
  refine ⟨?_, ?_⟩
  · intro start tx tx' loaded read read' projectors calls stamped commit hstart hread hrun hprepare
    have happended := (appended_of_readLoaded projectors hread).appendAll hrun
    exact happended.asStaged_iff hstart hprepare
  · intro tx tx' read read' events named interval error hstage
    exact (Transaction.stage_error hstage).imp id Transaction.barren_of_poisoned

def showing : Projector counter Nat := ⟨0, fun _ state _ => .ok [state]⟩

def unread : Transaction Nat := ⟨0, 2, [], [], [], false, false, false⟩

def fresh : Loaded counter := Loaded.new "counter"

theorem appendAll_asStaged_of_two :
    ∃ read tx read' tx' commit, unread.readLoaded fresh = .ok (read, tx) ∧
      appendAll [showing] [([()], true), ([()], false)] read tx = .ok (read', tx') ∧
      tx'.prepare { commitId := "commit" } = .ok commit ∧
      commit.operations = [2] ∧
      AsStaged ⟨2, [showing], []⟩ fresh [(), ()] { commitId := "commit" } read' commit := by
  refine ⟨_, _, _, _, _, rfl, rfl, rfl, rfl, ?_⟩
  exact (appendAll_asStaged_iff.1 unread _ _ fresh _ _ [showing] [([()], true), ([()], false)]
    { commitId := "commit" } _ (by simp [unread]) rfl rfl rfl).mpr (.inr (.inl rfl))

/-- The first append names the projector without events, so the second one runs none. -/
theorem appendAll_loses_operations :
    ∃ read tx read' tx' commit, unread.readLoaded fresh = .ok (read, tx) ∧
      appendAll [showing] [([], true), ([()], false)] read tx = .ok (read', tx') ∧
      tx'.prepare { commitId := "commit" } = .ok commit ∧
      commit.operations = [] ∧
      ((⟨2, [showing], []⟩ : Store counter Nat).stage fresh [()] { commitId := "commit" }).map
        (·.2.operations) = .ok [1] ∧
      ¬AsStaged ⟨2, [showing], []⟩ fresh [()] { commitId := "commit" } read' commit := by
  have hstage : ((⟨2, [showing], []⟩ : Store counter Nat).stage fresh [()]
      { commitId := "commit" }).map (·.2.operations) = .ok [1] := rfl
  refine ⟨_, _, _, _, _, rfl, rfl, rfl, rfl, hstage, ?_⟩
  rintro (⟨hnone, -⟩ | ⟨final, one, hone, -, hsame, -⟩)
  · cases hnone
  · rw [hone] at hstage
    have hshown : one.operations = [1] := Except.ok.inj hstage
    rw [hshown] at hsame
    cases hsame

end Appends

end EventStore
