import EventStore.Runs.Folding

/-!
What the store commits continues the logs it was decided on. The events of a staged
stream follow the prefix that was loaded, its snapshot encodes the state they lead to,
and the projectors are shown that state.
-/
namespace EventStore

open Result

/-- Events that follow a prefix of the log and lead to the state the snapshot encodes. -/
structure Continues (A : Aggregate) (log events : List SerializedEvent)
    (snapshot : Option NewSnapshot) (state : A.State) : Prop where
  written : events ≠ []
  place : ∃ n : Nat, n ≤ log.length ∧ Consecutive.From SerializedEvent.sequence (n + 1) events ∧
    A.fold (log.take n ++ events) = .ok state
  entityType : ∀ event ∈ events, event.entityType = A.entityType
  snapshot : ∀ new, snapshot = some new → A.encode state = .ok new.payload
  steady : ∀ event ∈ events, ∀ metadata, A.read { event with metadata } = A.read event

/-- A written stream with the state it comes to, encoded only for a projector. -/
def Shows (A : Aggregate) (projectors : List CommitProjector) (log : List SerializedEvent)
    (entityId : EntityId) (events : List SerializedEvent) (snapshot : Option NewSnapshot)
    (shown : CommitStream) : Prop :=
  ∃ state bytes, Continues A log events snapshot state ∧
    (projectors ≠ [] → A.encode state = .ok bytes) ∧
    shown = .new entityId A.entityType events bytes

def Request.write : Request → Write
  | .commit c => .ofCommit c
  | .transaction t => .ofTransaction t.normalized

variable {w : Write}

theorem Request.write_of_plan {E : Env} {q : Request} (h : q.plan E = .ok (some w)) :
    w = q.write := by
  rcases plan_eq_some h with ⟨c, ⟨rfl, -⟩, rfl⟩ | ⟨t, ⟨rfl, -⟩, rfl⟩ <;> rfl

def Write.writing (w : Write) : List (Commit Empty) :=
  w.streams.filter fun c => !c.events.isEmpty

section Logs

variable {κ : Type} (A : κ → Aggregate) (kindOf : EntityId → κ)
  (projectors : List CommitProjector) (logs : EntityId → List SerializedEvent)

/-- The write adds nothing, or continues its logs and carries what the projectors make of them. -/
inductive Write.Continues (w : Write) : Prop
  | bare (streams : w.writing = []) (views : w.views = [])
  | decided (commitId : String) (shown : List CommitStream)
      (streams : List.Forall₂ (fun c => Shows (A (kindOf c.entityId)) projectors
        (logs c.entityId) c.entityId c.events c.snapshot) w.writing shown)
      (views : projectApplication projectors ⟨commitId, shown⟩ = .ok w.views)
      (commitIds : ∀ c ∈ w.writing, ∀ event ∈ c.events, event.metadata.commitId = commitId)

end Logs

variable {projectors : List CommitProjector} {logs : EntityId → List SerializedEvent}
  {entityId : EntityId}

section Prefixes

variable {A : Aggregate} {log log' events : List SerializedEvent}
  {snapshot : Option NewSnapshot} {state : A.State}

theorem Continues.mono (h : Continues A log events snapshot state) (hlog : log <+: log') :
    Continues A log' events snapshot state := by
  obtain ⟨n, hn, hfrom, hfold⟩ := h.place
  refine ⟨h.written, ⟨n, hn.trans hlog.length_le, hfrom, ?_⟩, h.entityType, h.snapshot,
    h.steady⟩
  rw [take_prefix_eq hlog hn]
  exact hfold

theorem Continues.fold_of_admitted (h : Continues A log events snapshot state)
    {first : SerializedEvent} (hfirst : events.head? = some first)
    (hplace : first.sequence = log.length + 1) : A.fold (log ++ events) = .ok state := by
  obtain ⟨n, hn, hfrom, hfold⟩ := h.place
  cases events with
  | nil => cases hfirst
  | cons event events =>
    cases hfirst
    have := hfrom.1
    rwa [List.take_of_length_le (by omega)] at hfold

theorem Shows.mono {shown : CommitStream}
    (h : Shows A projectors log entityId events snapshot shown) (hlog : log <+: log') :
    Shows A projectors log' entityId events snapshot shown := by
  obtain ⟨state, bytes, hcontinues, hbytes, rfl⟩ := h
  exact ⟨state, bytes, hcontinues.mono hlog, hbytes, rfl⟩

theorem Write.Continues.mono {κ : Type} {A : κ → Aggregate} {kindOf : EntityId → κ}
    {logs' : EntityId → List SerializedEvent} (h : w.Continues A kindOf projectors logs)
    (hlogs : ∀ entityId, logs entityId <+: logs' entityId) :
    w.Continues A kindOf projectors logs' := by
  cases h with
  | bare streams views => exact .bare streams views
  | decided commitId shown streams views commitIds =>
    exact .decided commitId shown (streams.imp fun _ _ hc => hc.mono (hlogs _)) views commitIds

/-- Every stream a continuing write adds events to is one the projectors are shown. -/
theorem Write.Continues.shows {κ : Type} {A : κ → Aggregate} {kindOf : EntityId → κ}
    (h : w.Continues A kindOf projectors logs) {c : Commit Empty} (hc : c ∈ w.streams)
    (hevents : c.events ≠ []) :
    ∃ shown, Shows (A (kindOf c.entityId)) projectors (logs c.entityId) c.entityId c.events
      c.snapshot shown := by
  have hmem : c ∈ w.writing := List.mem_filter.mpr ⟨hc, by simpa using hevents⟩
  cases h with
  | bare streams views => simp [streams] at hmem
  | decided commitId shown streams views commitIds =>
    obtain ⟨k, hk, rfl⟩ := List.mem_iff_getElem.mp hmem
    exact ⟨_, streams.get hk (streams.length_eq ▸ hk)⟩

end Prefixes

variable {serialized : List SerializedEvent}

section Derived

variable {A : Aggregate} {state : A.State}

theorem encodeWhen_ok {needed : Bool} {bytes : Option Bytes}
    (h : encodeWhen A needed state = .ok bytes) (hneeded : needed = true) :
    A.encode state = .ok (bytes.getD .empty) := by
  subst hneeded
  simp only [encodeWhen, if_true, bind_eq_ok] at h
  obtain ⟨encoded, hencoded, h⟩ := h
  cases h
  cases hstate : A.encode state with
  | error error => simp [hstate, Except.mapError] at hencoded
  | ok payload =>
    rw [hstate] at hencoded
    cases hencoded
    rfl

/-- A commit's snapshot carries the state, and there is one only when it is due. -/
theorem dueSnapshot_ok {due : Bool} {snapshotSequence : Int} {bytes : Bytes} {new : NewSnapshot}
    (h : dueSnapshot A due entityId snapshotSequence serialized bytes = .ok (some new)) :
    due = true ∧ new.payload = bytes := by
  unfold dueSnapshot at h
  split at h
  · simp only [NewSnapshot.withinBudget, bind_eq_ok] at h
    obtain ⟨fits, -, h⟩ := h
    cases fits with
    | false => cases h
    | true =>
      cases h
      exact ⟨rfl, rfl⟩
  · cases h

end Derived

variable {stamped : Metadata}

section Staging

variable {A : Aggregate} {config : StoreConfig A} {log : List SerializedEvent}
  {loaded loaded' : Loaded A} {events : List A.Event} {stamped : Metadata}
  {commit : Commit Empty}

theorem StoreConfig.projectStage_eq (config : StoreConfig A) (commitId : String)
    (entityId : EntityId) (serialized : List SerializedEvent) (bytes : Bytes) :
    config.projectStage commitId entityId serialized bytes =
      projectApplication config.commitProjectors
        ⟨commitId, [.new entityId A.entityType serialized bytes]⟩ := by
  unfold StoreConfig.projectStage
  split
  · rename_i hnone
    rw [List.isEmpty_iff.mp hnone]
    rfl
  · rfl

/-- A commit that continues the log, and the loaded aggregate after its events. -/
structure Staged (config : StoreConfig A) (log : List SerializedEvent) (loaded : Loaded A)
    (stamped : Metadata) (loaded' : Loaded A) (commit : Commit Empty) : Prop where
  entityId : commit.entityId = loaded.entityId
  sequence : loaded'.sequence = loaded.sequence + commit.events.length
  same : loaded'.entityId = loaded.entityId
  outcome : commit.outcome = none
  fold : A.fold (log.take loaded.sequence.toNat ++ commit.events) = .ok loaded'.aggregate
  metadata : ∀ event ∈ commit.events, event.metadata = stamped
  written : commit.events ≠ []
  numbered : Consecutive.From SerializedEvent.sequence (loaded.sequence + 1) commit.events
  shown : ∃ shown, Shows A config.commitProjectors log loaded.entityId commit.events
    commit.snapshot shown ∧
    projectApplication config.commitProjectors ⟨stamped.commitId, [shown]⟩ = .ok commit.views

theorem StoreConfig.stage_staged (hA : A.RoundTrips) (hof : loaded.Of log)
    (hevents : events ≠ []) (h : config.stage loaded events stamped = .ok (loaded', commit)) :
    Staged config log loaded stamped loaded' commit := by
  simp only [StoreConfig.stage, bind_eq_ok] at h
  obtain ⟨serialized, hserialized, operations, -, state, hstate, views, hviews, snapshot,
    hsnapshot, h⟩ := h
  cases h
  obtain ⟨hnumbered, hlength, hfields⟩ := serializeEvents_fields hserialized
  have hwritten : serialized ≠ [] := by
    rintro rfl
    exact hevents (List.length_eq_zero_iff.mp hlength.symm)
  have hmetadata : ∀ event ∈ serialized, event.metadata = stamped :=
    fun event hevent => (hfields event hevent).2.2
  have hfold : A.fold (log.take loaded.sequence.toNat ++ serialized) =
      .ok (events.foldl A.apply loaded.aggregate) := by
    have := foldFrom_serializeEvents hA stamped loaded.aggregate hserialized
    rw [restamped_self hmetadata] at this
    rw [Aggregate.fold_append hof.state, this]
  have hnonneg := hof.nonneg
  have hwithin := hof.within
  refine ⟨rfl, ?_, rfl, rfl, hfold, hmetadata, hwritten, hnumbered, ?_⟩
  · obtain ⟨last, hlast⟩ : ∃ last, serialized.getLast? = some last :=
      ⟨_, List.getLast?_eq_some_getLast hwritten⟩
    have := Consecutive.number_of_getLast? hnumbered hlast
    simp only [hlast, Option.map_some, Option.getD_some]
    omega
  · refine ⟨_, ⟨events.foldl A.apply loaded.aggregate, state.getD .empty, ⟨hwritten, ?_,
      fun event hevent => (hfields event hevent).2.1, ?_, read_serializeEvents hA hserialized⟩, ?_,
      rfl⟩, ?_⟩
    · refine ⟨loaded.sequence.toNat, by omega, ?_, hfold⟩
      rwa [Int.toNat_of_nonneg hnonneg]
    · rintro new rfl
      obtain ⟨hdue, hpayload⟩ := dueSnapshot_ok hsnapshot
      rw [hpayload]
      exact encodeWhen_ok hstate (by simp [hdue])
    · intro hprojectors
      exact encodeWhen_ok hstate (by simp [hprojectors])
    · rw [← StoreConfig.projectStage_eq]
      exact hviews

/-- Once the commit was admitted, the aggregate after it is the fold of the log. -/
theorem Staged.loaded_of {log' : List SerializedEvent}
    (h : Staged config log loaded stamped loaded' commit) (hof : loaded.Of log)
    (hlog : log <+: log')
    (hplace : ∀ first, commit.events.head? = some first → first.sequence = log'.length + 1) :
    loaded'.Of (log' ++ commit.events) := by
  have hnonneg := hof.nonneg
  have hwithin := hof.within
  have hlength := hlog.length_le
  have hsequence := h.sequence
  have hat : loaded.sequence = log'.length := by
    cases hevents : commit.events with
    | nil => exact absurd hevents h.written
    | cons first rest =>
      have hnumber := h.numbered
      rw [hevents] at hnumber
      have := hplace first (by rw [hevents]; rfl)
      have := hnumber.1
      omega
  have hfold := h.fold
  rw [← take_prefix_eq hlog (by omega), List.take_of_length_le (by omega)] at hfold
  refine ⟨by omega, by rw [List.length_append]; push_cast; omega, ?_⟩
  rw [List.take_of_length_le (by rw [List.length_append]; omega)]
  exact hfold

/-- A staged commit, with or without an outcome, continues its log. -/
theorem Staged.continues {κ : Type} {A : κ → Aggregate} {kindOf : EntityId → κ}
    {config : StoreConfig (A (kindOf entityId))} {loaded loaded' : Loaded (A (kindOf entityId))}
    {commit : Commit Empty} (hid : loaded.entityId = entityId)
    (h : Staged config (logs entityId) loaded stamped loaded' commit) (outcome : Option Outcome) :
    (Request.commit { commit with outcome }).write.Continues A kindOf config.commitProjectors
      logs := by
  obtain ⟨shown, hshown, hviews⟩ := h.shown
  have hentity : commit.entityId = entityId := h.entityId.trans hid
  have hwriting : (Request.commit { commit with outcome }).write.writing =
      [{ commit with outcome }] := by
    simp [Request.write, Write.ofCommit, Write.writing, h.written]
  refine .decided stamped.commitId [shown] ?_ hviews ?_
  · rw [hwriting]
    refine .cons ?_ .nil
    simp only [hentity]
    rwa [hid] at hshown
  · rw [hwriting]
    simp only [List.forall_mem_singleton]
    intro event hevent
    rw [h.metadata event hevent]

end Staging

section Transactions

variable {κ : Type} {A : κ → Aggregate} {config : TransactionConfig}

/-- A transaction's stream follows the log with its staged events. -/
structure StreamState.Follows (projectors : List CommitProjector) (log : List SerializedEvent)
    (s : StreamState A) : Prop where
  nonneg : 0 ≤ s.head
  within : s.head ≤ log.length
  sequence : s.loaded.sequence = s.head + s.events.length
  numbered : Consecutive.From SerializedEvent.sequence (s.head + 1) s.events
  entityType : ∀ event ∈ s.events, event.entityType = s.entityType
  fold : ∀ metadata, (A s.kind).fold (log.take s.head.toNat ++ restamped metadata s.events) =
    .ok s.loaded.aggregate
  snapshot : ∀ new, s.snapshot = some new → (A s.kind).encode s.loaded.aggregate = .ok new.payload
  state : projectors ≠ [] → s.events ≠ [] →
    (A s.kind).encode s.loaded.aggregate = .ok s.state
  steady : ∀ event ∈ s.events, ∀ metadata,
    (A s.kind).read { event with metadata } = (A s.kind).read event

namespace StreamState

variable {log log' : List SerializedEvent} {s : StreamState A}

theorem Follows.mono (h : s.Follows projectors log) (hlog : log <+: log') :
    s.Follows projectors log' := by
  have := h.nonneg
  have := h.within
  have := hlog.length_le
  refine ⟨h.nonneg, by omega, h.sequence, h.numbered, h.entityType, fun metadata => ?_, h.snapshot,
    h.state, h.steady⟩
  rw [take_prefix_eq hlog (by omega)]
  exact h.fold metadata

theorem follows_ofLoaded {kind : κ} {loaded : Loaded (A kind)} (projectors : List CommitProjector)
    (h : loaded.Of log) : (ofLoaded loaded : StreamState A).Follows projectors log := by
  refine ⟨h.nonneg, h.within, by simp [ofLoaded], trivial, by simp [ofLoaded], fun metadata => ?_,
    by simp [ofLoaded], fun _ hevents => absurd rfl hevents, by simp [ofLoaded]⟩
  simpa [ofLoaded, restamped] using h.state

/-- A stream with staged events is committed, and shown, as one that continues its log. -/
theorem Follows.shows (h : s.Follows projectors log) (hevents : s.events ≠ [])
    (stamped : Metadata) :
    Shows (A s.kind) projectors log s.entityId (Transaction.stampedEvents s stamped) s.snapshot
      (Transaction.streamView stamped s) := by
  have := h.nonneg
  have := h.within
  refine ⟨s.loaded.aggregate, s.state, ⟨by simpa [Transaction.stampedEvents] using hevents,
    ⟨s.head.toNat, by omega, ?_, h.fold stamped⟩, ?_, h.snapshot, ?_⟩,
    fun hp => h.state hp hevents, rfl⟩
  · rw [Int.toNat_of_nonneg h.nonneg]
    exact From_restamped h.numbered
  · intro event hevent
    obtain ⟨staged, hstaged, rfl⟩ := List.mem_map.mp hevent
    exact h.entityType staged hstaged
  · intro event hevent metadata
    obtain ⟨staged, hstaged, rfl⟩ := List.mem_map.mp hevent
    rw [h.steady staged hstaged stamped]
    exact h.steady staged hstaged metadata

end StreamState

namespace Transaction

theorem stageDerived_ok {s : StreamState A} {aggregate : (A s.kind).State}
    {snapshot : Option NewSnapshot} {state : Bytes}
    (h : stageDerived config s serialized aggregate = .ok (snapshot, state)) :
    (∀ new, snapshot = some new → (A s.kind).encode aggregate = .ok new.payload) ∧
      (config.commitProjectors ≠ [] → (A s.kind).encode aggregate = .ok state) := by
  simp only [stageDerived, deriveStage, bind_eq_ok] at h
  obtain ⟨bytes, hbytes, new, hnew, h⟩ := h
  cases h
  constructor
  · rintro new rfl
    obtain ⟨hdue, hpayload⟩ := dueSnapshot_ok hnew
    rw [hpayload]
    exact encodeWhen_ok hbytes (by simp [hdue])
  · intro hprojectors
    rw [if_neg (by simpa using hprojectors)]
    exact encodeWhen_ok hbytes (by simp [hprojectors])

theorem follows_staged {log : List SerializedEvent} {s : StreamState A} (hA : (A s.kind).RoundTrips)
    (h : s.Follows config.commitProjectors log) {events : List (A s.kind).Event}
    (hevents : events ≠ [])
    (hserialized : serializeEvents (A s.kind) s.entityId s.loaded.sequence {} events =
      .ok serialized) {snapshot : Option NewSnapshot} {state : Bytes}
    (hderived :
      stageDerived config s serialized (events.foldl (A s.kind).apply s.loaded.aggregate) =
      .ok (snapshot, state)) :
    (staged s serialized (events.foldl (A s.kind).apply s.loaded.aggregate) snapshot
      state).Follows config.commitProjectors log := by
  obtain ⟨hnumbered, hlength, hfields⟩ := serializeEvents_fields hserialized
  obtain ⟨hsnapshot, hstate⟩ := stageDerived_ok hderived
  have hwritten : serialized ≠ [] := by
    rintro rfl
    exact hevents (List.length_eq_zero_iff.mp hlength.symm)
  have hsequence := h.sequence
  refine ⟨h.nonneg, h.within, ?_, ?_, ?_, fun metadata => ?_, hsnapshot, fun hp _ => hstate hp, ?_⟩
  · obtain ⟨last, hlast⟩ : ∃ last, serialized.getLast? = some last :=
      ⟨_, List.getLast?_eq_some_getLast hwritten⟩
    have := Consecutive.number_of_getLast? hnumbered hlast
    simp only [staged, hlast, Option.map_some, Option.getD_some, List.length_append]
    push_cast
    omega
  · rw [staged, Consecutive.from_append]
    refine ⟨h.numbered, ?_⟩
    rwa [show s.head + 1 + s.events.length = s.loaded.sequence + 1 by omega]
  · simp only [staged, List.forall_mem_append]
    exact ⟨h.entityType, fun event hevent => (hfields event hevent).2.1⟩
  · have hfold := foldFrom_serializeEvents hA metadata s.loaded.aggregate hserialized
    show (A s.kind).fold (log.take s.head.toNat ++ restamped metadata (s.events ++ serialized)) = _
    rw [restamped_append, ← List.append_assoc, Aggregate.fold_append (h.fold metadata), hfold]
    rfl
  · simp only [staged, List.forall_mem_append]
    exact ⟨h.steady, read_serializeEvents hA hserialized⟩

def Follows (kindOf : EntityId → κ) (projectors : List CommitProjector)
    (logs : EntityId → List SerializedEvent) (tx : Transaction A) : Prop :=
  ∀ s ∈ tx.streams, s.kind = kindOf s.entityId ∧ s.Follows projectors (logs s.entityId)

variable {kindOf : EntityId → κ} {logs logs' : EntityId → List SerializedEvent}
  {tx tx' : Transaction A}

theorem Follows.mono (h : tx.Follows kindOf projectors logs)
    (hlogs : ∀ entityId, logs entityId <+: logs' entityId) : tx.Follows kindOf projectors logs' :=
  fun s hs => ⟨(h s hs).1, (h s hs).2.mono (hlogs _)⟩

theorem Follows.readLoaded (h : tx.Follows kindOf projectors logs) {kind : κ}
    {loaded : Loaded (A kind)} (hkind : kind = kindOf loaded.entityId)
    (hof : loaded.Of (logs loaded.entityId)) (hread : tx.readLoaded loaded = .ok tx') :
    tx'.Follows kindOf projectors logs := by
  simp only [Transaction.readLoaded, seq_eq_ok] at hread
  obtain ⟨-, -, hread⟩ := hread
  cases hread
  intro s hs
  rcases List.mem_append.mp hs with hs | hs
  · exact h s hs
  · obtain rfl := List.mem_singleton.mp hs
    exact ⟨hkind, StreamState.follows_ofLoaded projectors hof⟩

theorem follows_stable (hA : ∀ kind, (A kind).RoundTrips) :
    Stable config fun tx : Transaction A => tx.Follows kindOf config.commitProjectors logs := by
  refine .of_streams fun h hstages => ?_
  cases hstages with
  | staged hevents hserialized hderived =>
    exact ⟨h.1, follows_staged (hA _) h.2 hevents hserialized hderived⟩

theorem written_build {commit : TransactionCommit Empty}
    (hbuild : tx.build config stamped = .ok commit) (outcome : Option Outcome) :
    ({ commit with outcome } : TransactionCommit Empty).written = commit.streams ∧
      (Request.transaction { commit with outcome }).write.streams =
        tx.written.map (streamCommit stamped) := by
  obtain ⟨hstreams, -⟩ := build_ok hbuild
  have hwritten : ∀ c ∈ ({ commit with outcome } : TransactionCommit Empty).streams,
      c.events ≠ [] := by
    intro c hc
    simp only [hstreams, List.mem_map] at hc
    obtain ⟨s, hs, rfl⟩ := hc
    simpa [streamCommit, stampedEvents] using (mem_written.mp hs).2
  have hsorted : ({ commit with outcome } : TransactionCommit Empty).streams.Pairwise
      fun a b => a.entityId ≤ b.entityId := by
    simp only [hstreams]
    exact List.pairwise_map.mpr tx.written_sorted
  obtain ⟨hall, hnormalized⟩ := TransactionCommit.streams_normalized hwritten hsorted
  refine ⟨hall, ?_⟩
  simp only [Request.write, Write.ofTransaction, hnormalized]
  simp only [hstreams, List.map_map]
  rfl

/-- The commit a transaction builds continues the logs of the streams it writes. -/
theorem Follows.continues {commit : TransactionCommit Empty}
    (h : tx.Follows kindOf config.commitProjectors logs)
    (hbuild : tx.build config stamped = .ok commit) (outcome : Option Outcome) :
    (Request.transaction { commit with outcome }).write.Continues A kindOf
      config.commitProjectors logs := by
  obtain ⟨hstreams, -, -, hviews⟩ := build_ok hbuild
  obtain ⟨hall, hwrite⟩ := written_build hbuild outcome
  set t : TransactionCommit Empty := { commit with outcome } with ht
  have hwriting : (Request.transaction t).write.writing =
      tx.written.map (streamCommit stamped) := by
    rw [Write.writing, hwrite, List.filter_eq_self]
    intro c hc
    obtain ⟨s, hs, rfl⟩ := List.mem_map.mp hc
    simpa [streamCommit, stampedEvents] using (mem_written.mp hs).2
  have hcarried : (Request.transaction t).write.views = commit.views := by
    have hnone : commit.streams.flatMap (·.views) = [] := by
      simp only [hstreams, List.flatMap_eq_nil_iff, List.mem_map]
      rintro c ⟨s, -, rfl⟩
      rfl
    simp only [Request.write, Write.ofTransaction, TransactionCommit.normalized, hall, hnone]
    rfl
  refine .decided stamped.commitId (tx.written.map (streamView stamped)) ?_ (hcarried ▸ hviews) ?_
  · rw [hwriting, List.forall₂_map_left_iff, List.forall₂_map_right_iff, List.forall₂_same]
    intro s hs
    obtain ⟨hmem, hevents⟩ := mem_written.mp hs
    obtain ⟨hkind, hfollows⟩ := h s hmem
    have hshows := hfollows.shows hevents stamped
    rw [hkind] at hshows
    exact hshows
  · rw [hwriting]
    intro c hc event hevent
    obtain ⟨s, -, rfl⟩ := List.mem_map.mp hc
    obtain ⟨staged, -, rfl⟩ := List.mem_map.mp hevent
    rfl

end Transaction

end Transactions

end EventStore
