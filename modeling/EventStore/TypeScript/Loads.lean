import EventStore.TypeScript.Streams

/-!
A load of the TypeScript store among any writers has folded the whole log of one moment between
its first read and its last: the events it read run to the end of the log, and when it read none,
the snapshot it read again tells that none were compacted away.
-/
namespace EventStore.TypeScript

open Result

namespace Aggregate

def replay (A : Aggregate) (state : A.State) (stored : SerializedEvent) : Except Error A.State :=
  (replayEvent A stored).map (A.apply state)

def fold (A : Aggregate) (log : List SerializedEvent) : Except Error A.State :=
  log.foldlM A.replay A.initial

/-- What is stored is read back as it was. -/
structure RoundTrips (A : Aggregate) : Prop where
  states : ∀ {state payload}, A.encode state = .ok payload → A.decode payload = .ok state
  events : ∀ {event stored}, encodeEventData A event = .ok (stored.version, stored.payload) →
    stored.eventType = A.typeOf event → replayEvent A stored = .ok event

end Aggregate

variable {A : Aggregate}

theorem Loaded.replayAll_ok {loaded loaded' : Loaded A} {events : List SerializedEvent}
    (h : loaded.replayAll events = .ok loaded') :
    Consecutive.From SerializedEvent.sequence (loaded.sequence + 1) events ∧
      events.foldlM A.replay loaded.state = .ok loaded'.state ∧
      loaded'.sequence = loaded.sequence + events.length ∧
      loaded'.entityId = loaded.entityId := by
  induction events generalizing loaded with
  | nil =>
    cases h
    exact ⟨trivial, rfl, by simp, rfl⟩
  | cons stored events ih =>
    obtain ⟨hnext, h⟩ := seq_eq_ok.mp h
    obtain ⟨event, hevent, h⟩ := bind_eq_ok.mp h
    have hnext : stored.sequence = loaded.sequence + 1 := by simpa using hnext
    obtain ⟨hfrom, hfold, hsequence, hid⟩ := ih h
    refine ⟨⟨hnext, by rwa [← hnext]⟩, ?_, ?_, hid⟩
    · exact bind_eq_ok.mpr ⟨_, map_eq_ok.mpr ⟨event, hevent, rfl⟩, hfold⟩
    · rw [hsequence, List.length_cons, hnext]
      push_cast
      ring

/-- A snapshot is the state of the log up to its event sequence. -/
structure SnapshotOf (A : Aggregate) (log : List SerializedEvent) (snapshot : SerializedSnapshot) :
    Prop where
  nonneg : 0 ≤ snapshot.eventSequence
  le : snapshot.eventSequence ≤ log.length
  state : ∃ state, A.fold (log.take snapshot.eventSequence.toNat) = .ok state ∧
    A.decode snapshot.payload = .ok state

variable {log : List SerializedEvent} {snapshot : SerializedSnapshot}

theorem SnapshotOf.append (h : SnapshotOf A log snapshot) (more : List SerializedEvent) :
    SnapshotOf A (log ++ more) snapshot := by
  have hle := h.le
  have hnonneg := h.nonneg
  refine ⟨h.nonneg, by rw [List.length_append]; omega, ?_⟩
  rw [List.take_append_of_le_length (by omega)]
  exact h.state

structure LoadWorld where
  repository : MemRepository
  log : EntityId → List SerializedEvent

namespace LoadWorld

def appended (log : EntityId → List SerializedEvent) (streams : List Commit) (entityId : EntityId) :
    List SerializedEvent :=
  log entityId ++ (streams.filter fun c => c.entityId == entityId).flatMap (·.events)

def committed (w : LoadWorld) (normalized : Except Error NormalizedTransaction)
    (answer : Except Error Unit × MemRepository) : LoadWorld :=
  match normalized, answer with
  | .ok t, (.ok (), r) => ⟨r, appended w.log t.streams⟩
  | _, (_, r) => ⟨r, w.log⟩

/-- The calls of any writers. -/
inductive Calls (E : Env) : LoadWorld → LoadWorld → Prop
  | commit (w : LoadWorld) (c : Commit) :
      Calls E w (w.committed (commitAsTransaction E c) (w.repository.commit E c))
  | transaction (w : LoadWorld) (t : TransactionCommit) :
      Calls E w (w.committed (normalizeTransaction E t) (w.repository.commitTransaction E t))
  | putSnapshot (w : LoadWorld) (snapshot : SerializedSnapshot) :
      Calls E w ⟨(w.repository.putSnapshot snapshot).2, w.log⟩
  | compactBelow (w : LoadWorld) (entityId : EntityId) (through : Int) :
      Calls E w ⟨(w.repository.compactBelow entityId through).2, w.log⟩

/-- Every stream keeps its log. -/
def Kept (w : LoadWorld) : Prop :=
  ∀ entityId, (w.repository.held entityId).Holds (w.log entityId)

/-- A call that stores a state of the log, if it stores a snapshot. -/
structure Writes (E : Env) (kind : EntityId → Aggregate) (w w' : LoadWorld) : Prop where
  calls : Calls E w w'
  snapshots : ∀ entityId snapshot, (w'.repository.held entityId).snapshot = some snapshot →
    (w.repository.held entityId).snapshot = some snapshot ∨
      SnapshotOf (kind entityId) (w'.log entityId) snapshot

/-- Every stream keeps its log, and its snapshot is one of the log. -/
structure Sound (kind : EntityId → Aggregate) (w : LoadWorld) : Prop where
  kept : w.Kept
  snapshots : ∀ entityId snapshot, (w.repository.held entityId).snapshot = some snapshot →
    SnapshotOf (kind entityId) (w.log entityId) snapshot

variable {E : Env} {kind : EntityId → Aggregate} {w w' : LoadWorld}

theorem held_new (entityId : EntityId) : MemRepository.new.held entityId = .absent := by
  simp [MemRepository.held, MemRepository.new]

theorem kept_new : Kept ⟨.new, fun _ => []⟩ := by
  intro entityId
  simp only [held_new]
  exact Stream.holds_absent

theorem sound_new : Sound kind ⟨.new, fun _ => []⟩ := by
  refine ⟨kept_new, fun entityId snapshot hs => ?_⟩
  simp only [held_new] at hs
  cases hs

variable {r : MemRepository}

variable {stream : Stream} {c : Commit}

/-- After a commit that passes, the snapshot is the old one or ends the extended log. -/
theorem snapshot_applyStream (hholds : stream.Holds log) (hv : c.toCrate.Valid)
    (hpass : checkWrite c stream = none) :
    (applyStream stream c.toCrate).snapshot = stream.snapshot ∨
      ∃ new stored, c.snapshot = some new ∧ c.events ≠ [] ∧
        (applyStream stream c.toCrate).snapshot = some stored ∧ stored.payload = new.payload ∧
        stored.eventSequence = (log ++ c.events).length := by
  simp only [applyStream, Commit.toCrate]
  cases hlast : c.events.getLast? with
  | none => exact .inl rfl
  | some last =>
    cases hs : c.snapshot with
    | none => exact .inl rfl
    | some new =>
      have hne : c.events ≠ [] := by
        rintro hnil
        simp [hnil] at hlast
      obtain ⟨first, events, hevents⟩ := List.exists_cons_of_ne_nil hne
      have hfirst : c.events.head? = some first := by simp [hevents]
      refine .inr ⟨new, _, rfl, hne, rfl, rfl, ?_⟩
      have hseq := first_of_checkWrite hholds hv hpass hfirst
      have hsequence := Consecutive.number_of_getLast? (hv.consecutive first hfirst)
        (show c.toCrate.events.getLast? = some last from hlast)
      simp only [hsequence, hseq, List.length_append, Commit.toCrate]
      push_cast
      ring

theorem filter_of_sorted {streams : List Commit}
    (hsorted : streams.Pairwise fun a b => a.entityId < b.entityId) (hc : c ∈ streams) :
    streams.filter (fun d => d.entityId == c.entityId) = [c] := by
  induction hsorted with
  | nil => cases hc
  | @cons d streams hlt _ ih =>
    obtain rfl | hc := List.mem_cons.mp hc
    · rw [List.filter_cons_of_pos (by simp), List.filter_eq_nil_iff.mpr]
      intro other hother
      simpa using (hlt other hother).ne'
    · rw [List.filter_cons_of_neg (by simpa using (hlt c hc).ne), ih hc]

def Grows (w w' : LoadWorld) : Prop :=
  ∀ entityId, w.log entityId <+: w'.log entityId ∧
    ∀ snapshot, (w.repository.held entityId).snapshot = some snapshot →
      ∃ later, (w'.repository.held entityId).snapshot = some later ∧
        snapshot.eventSequence ≤ later.eventSequence

theorem Grows.refl (w : LoadWorld) : w.Grows w :=
  fun _ => ⟨List.prefix_refl _, fun snapshot h => ⟨snapshot, h, le_rfl⟩⟩

theorem Grows.trans {w'' : LoadWorld} (h : w.Grows w') (h' : w'.Grows w'') : w.Grows w'' := by
  intro entityId
  refine ⟨(h entityId).1.trans (h' entityId).1, fun snapshot hs => ?_⟩
  obtain ⟨later, hlater, hle⟩ := (h entityId).2 snapshot hs
  obtain ⟨latest, hlatest, hle'⟩ := (h' entityId).2 later hlater
  exact ⟨latest, hlatest, hle.trans hle'⟩

theorem keeps_of_streams (h : w.Kept) (hstreams : r.streams = w.repository.streams) :
    Kept ⟨r, w.log⟩ ∧ w.Grows ⟨r, w.log⟩ := by
  have hheld : ∀ entityId, r.held entityId = w.repository.held entityId := fun entityId => by
    rw [MemRepository.held, hstreams, MemRepository.held]
  refine ⟨fun entityId => ?_, fun entityId => ⟨List.prefix_refl _, fun snapshot hs => ?_⟩⟩
  · simp only [hheld]
    exact h entityId
  · exact ⟨snapshot, by simpa only [hheld] using hs, le_rfl⟩

/-- A stream after a transaction that applied: extended by its commit, or as it was. -/
theorem applied_cases {t : NormalizedTransaction} (hnormal : t.Normal)
    (hstreams : r.streams = MemRepository.writeStreams w.repository.streams t.streams)
    (entityId : EntityId) :
    (∃ c ∈ t.streams, c.entityId = entityId ∧
        r.held entityId = applyStream (w.repository.held entityId) c.toCrate ∧
        appended w.log t.streams entityId = w.log entityId ++ c.events) ∨
      r.held entityId = w.repository.held entityId ∧
        appended w.log t.streams entityId = w.log entityId := by
  obtain ⟨c, hc, rfl, hheld⟩ | ⟨hnone, hheld⟩ := MemRepository.held_write hnormal hstreams entityId
  · refine .inl ⟨c, hc, rfl, hheld, ?_⟩
    rw [appended, filter_of_sorted hnormal.sorted hc, List.flatMap_singleton]
  · have hfilter : t.streams.filter (fun c => c.entityId == entityId) = [] :=
      List.filter_eq_nil_iff.mpr fun c hc => by simpa using hnone c hc
    exact .inr ⟨hheld, by rw [appended, hfilter, List.flatMap_nil, List.append_nil]⟩

theorem keeps_of_applied {t : NormalizedTransaction} (h : w.Kept) (hnormal : t.Normal)
    (hpass : ∀ c ∈ t.streams, checkWrite c (w.repository.held c.entityId) = none)
    (hstreams : r.streams = MemRepository.writeStreams w.repository.streams t.streams) :
    Kept ⟨r, appended w.log t.streams⟩ ∧ w.Grows ⟨r, appended w.log t.streams⟩ := by
  constructor
  · intro entityId
    obtain ⟨c, hc, rfl, hheld, hlog⟩ | ⟨hheld, hlog⟩ := applied_cases hnormal hstreams entityId
    · have hholds := h c.entityId
      have hv := hnormal.valid c hc
      simp only [hheld, hlog]
      exact hholds.extend hv fun first => first_of_checkWrite hholds hv (hpass c hc)
    · simp only [hheld, hlog]
      exact h entityId
  · refine fun entityId => ⟨List.prefix_append _ _, fun snapshot hs => ?_⟩
    obtain ⟨c, hc, rfl, hheld, -⟩ | ⟨hheld, -⟩ := applied_cases hnormal hstreams entityId
    · have hholds := h c.entityId
      obtain hsame | ⟨-, stored, -, -, hstored, -, hend⟩ :=
        snapshot_applyStream hholds (hnormal.valid c hc) (hpass c hc)
      · exact ⟨snapshot, by rw [hheld, hsame, hs], le_rfl⟩
      · have hle := hholds.covered snapshot hs
        rw [hholds.head] at hle
        rw [List.length_append] at hend
        exact ⟨stored, by rw [hheld, hstored], by omega⟩
    · exact ⟨snapshot, hheld ▸ hs, le_rfl⟩

/-- A call that commits: the transaction applies, or nothing moves but the manifest. -/
theorem committed_cases (E : Env) (w : LoadWorld)
    (normalized : Except Error NormalizedTransaction) :
    (∃ r, w.committed normalized (w.repository.writeNormalized E normalized) = ⟨r, w.log⟩ ∧
      r.streams = w.repository.streams) ∨
    ∃ n r, normalized = .ok n ∧
      w.committed normalized (w.repository.writeNormalized E normalized) =
        ⟨r, appended w.log n.streams⟩ ∧
      (∀ c ∈ n.streams, checkWrite c (w.repository.held c.entityId) = none) ∧
      r.streams = MemRepository.writeStreams w.repository.streams n.streams := by
  cases normalized with
  | error error => exact .inl ⟨w.repository, rfl, rfl⟩
  | ok n =>
    simp only [MemRepository.writeNormalized]
    split
    · rename_i hempty
      simp only [isEmptyTransaction, Bool.and_eq_true, List.isEmpty_iff] at hempty
      have hlog : appended w.log n.streams = w.log := by
        funext entityId
        simp [appended, hempty.1]
      exact .inl ⟨w.repository, by simp only [committed, hlog], rfl⟩
    · obtain ⟨⟨manifest, hsame⟩, hfails⟩ | ⟨hok, hstreams, hpass⟩ :=
        MemRepository.write_cases E w.repository n <;>
        generalize w.repository.write E n = answer at *
      · obtain ⟨_ | ⟨⟩, r⟩ := answer
        · exact .inl ⟨r, rfl, by rw [show r = _ from hsame]⟩
        · exact absurd rfl hfails
      · obtain ⟨_, r⟩ := answer
        cases hok
        exact .inr ⟨n, r, rfl, rfl, hpass, hstreams⟩

theorem committed_keeps (h : w.Kept) {normalized : Except Error NormalizedTransaction}
    (hnormal : ∀ n, normalized = .ok n → n.Normal) :
    Kept (w.committed normalized (w.repository.writeNormalized E normalized)) ∧
      w.Grows (w.committed normalized (w.repository.writeNormalized E normalized)) := by
  obtain ⟨r, heq, hstreams⟩ | ⟨n, r, hn, heq, hpass, hstreams⟩ := committed_cases E w normalized
  · rw [heq]
    exact keeps_of_streams h hstreams
  · rw [heq]
    exact keeps_of_applied h (hnormal n hn) hpass hstreams

variable {entityId : EntityId}

/-- One stream replaced by one that keeps the log and whose snapshot is no older. -/
theorem replaced_keeps (h : w.Kept)
    (hstreams : r.streams = w.repository.streams.insert entityId stream)
    (hholds : stream.Holds (w.log entityId))
    (hlater : ∀ snapshot, (w.repository.held entityId).snapshot = some snapshot →
      ∃ later, stream.snapshot = some later ∧
        snapshot.eventSequence ≤ later.eventSequence) :
    Kept ⟨r, w.log⟩ ∧ w.Grows ⟨r, w.log⟩ := by
  have hheld : r.held entityId = stream := by
    rw [MemRepository.held, hstreams, OrdMap.get_insert_self]
    rfl
  have hother : ∀ other, other ≠ entityId → r.held other = w.repository.held other := by
    intro other hne
    rw [MemRepository.held, hstreams, OrdMap.get_insert_ne _ _ hne, MemRepository.held]
  refine ⟨fun other => ?_, fun other => ⟨List.prefix_refl _, ?_⟩⟩
  · by_cases hne : other = entityId
    · subst hne
      simp only [hheld]
      exact hholds
    · simp only [hother other hne]
      exact h other
  · by_cases hne : other = entityId
    · subst hne
      simpa only [hheld] using hlater
    · simp only [hother other hne]
      exact fun snapshot hs => ⟨snapshot, hs, le_rfl⟩

/-- Every call keeps the logs and moves the streams forward. -/
theorem Calls.keeps (hcalls : Calls E w w') (h : w.Kept) : w'.Kept ∧ w.Grows w' := by
  cases hcalls with
  | commit c => exact committed_keeps h fun n hn => (commitAsTransaction_ok hn).1
  | transaction t => exact committed_keeps h fun n hn => normalizeTransaction_ok hn
  | putSnapshot snapshot =>
    obtain ⟨manifest, hsame⟩ | ⟨manifest, hput, hhead, hlater⟩ :=
      w.repository.putSnapshot_cases snapshot
    · rw [hsame]
      exact keeps_of_streams h rfl
    · rw [hput]
      exact replaced_keeps h rfl ((h snapshot.entityId).putSnapshot hhead hlater)
        fun stored hstored => ⟨snapshot, rfl, hlater stored hstored⟩
  | compactBelow entityId through =>
    obtain hsame | ⟨stream, snapshot, hget, hs, hcovered, hcompact⟩ :=
      w.repository.compactBelow_cases entityId through
    · rw [hsame]
      exact ⟨h, .refl w⟩
    · rw [hcompact]
      have hheld : w.repository.held entityId = stream := by
        rw [MemRepository.held, hget]
        rfl
      have hholds := h entityId
      rw [hheld] at hholds
      refine replaced_keeps h rfl (hholds.compact hs hcovered) ?_
      rw [hheld]
      exact fun stored hstored => ⟨stored, hstored, le_rfl⟩

theorem Kept.of_calls (hcalls : Relation.ReflTransGen (Calls E) w w') (h : w.Kept) :
    w'.Kept ∧ w.Grows w' := by
  induction hcalls with
  | refl => exact ⟨h, .refl w⟩
  | tail _ hstep ih =>
    obtain ⟨hkept, hgrows⟩ := ih
    obtain ⟨hkept', hgrows'⟩ := hstep.keeps hkept
    exact ⟨hkept', hgrows.trans hgrows'⟩

theorem Writes.keeps (hwrites : Writes E kind w w') (h : w.Sound kind) : w'.Sound kind := by
  obtain ⟨hkept, hgrows⟩ := hwrites.calls.keeps h.kept
  refine ⟨hkept, fun entityId snapshot hs => ?_⟩
  obtain hbefore | hnew := hwrites.snapshots entityId snapshot hs
  · obtain ⟨more, hmore⟩ := (hgrows entityId).1
    exact hmore ▸ (h.snapshots entityId snapshot hbefore).append more
  · exact hnew

theorem Sound.of_writes (hwrites : Relation.ReflTransGen (Writes E kind) w w')
    (h : w.Sound kind) : w'.Sound kind ∧ w.Grows w' := by
  induction hwrites with
  | refl => exact ⟨h, .refl w⟩
  | tail _ hstep ih =>
    exact ⟨hstep.keeps ih.1, ih.2.trans (hstep.calls.keeps ih.1.kept).2⟩

def answerRead (r : MemRepository) : (a : ReadAsk) → ReadAnswer a
  | .snapshot entityId => .ok (r.snapshot entityId)
  | .events entityId => r.events entityId
  | .eventsAfter entityId after => r.eventsAfter entityId after

def failedRead (error : Error) : (a : ReadAsk) → ReadAnswer a
  | .snapshot _ | .events _ | .eventsAfter _ _ => .error error

/-- A read sees one moment, or fails; it changes nothing. -/
def Reads (w : LoadWorld) (a : ReadAsk) (answer : ReadAnswer a) (w' : LoadWorld) : Prop :=
  w' = w ∧ (answer = answerRead w.repository a ∨ ∃ error, answer = failedRead error a)

/-- The load is the fold of all the events the stream has, at its head. -/
def Current (w : LoadWorld) (entityId : EntityId) (loaded : Loaded A) : Prop :=
  (w.repository.held entityId).head = loaded.sequence ∧
    A.fold (w.log entityId) = .ok loaded.state

structure Started (w : LoadWorld) (entityId : EntityId) (loaded : Loaded A) : Prop where
  nonneg : 0 ≤ loaded.sequence
  le : loaded.sequence ≤ (w.log entityId).length
  state : A.fold ((w.log entityId).take loaded.sequence.toNat) = .ok loaded.state

theorem Sound.started (h : w.Sound kind) {loaded : Loaded (kind entityId)}
    (hstart : Loaded.start (kind entityId) entityId (w.repository.snapshot entityId) =
      .ok loaded) : w.Started entityId loaded := by
  unfold MemRepository.snapshot at hstart
  cases hs : (w.repository.held entityId).snapshot with
  | none =>
    rw [hs] at hstart
    cases hstart
    exact ⟨le_rfl, by simp, rfl⟩
  | some snapshot =>
    rw [hs] at hstart
    obtain ⟨hnonneg, hle, state, hfold, hdecode⟩ := h.snapshots entityId snapshot hs
    simp only [Loaded.start, hdecode] at hstart
    cases hstart
    exact ⟨hnonneg, hle, hfold⟩

theorem Started.grows {loaded : Loaded A} (h : w.Started entityId loaded) (hgrows : w.Grows w') :
    w'.Started entityId loaded := by
  obtain ⟨more, hmore⟩ := (hgrows entityId).1
  have hle := h.le
  have hnonneg := h.nonneg
  refine ⟨h.nonneg, by rw [← hmore, List.length_append]; omega, ?_⟩
  rw [← hmore, List.take_append_of_le_length (by omega)]
  exact h.state

/-- The replay runs to the end of the log, or a snapshot covers more than the load. -/
theorem Started.replayed (h : w.Sound kind) {loaded loaded' : Loaded (kind entityId)}
    (hstarted : w.Started entityId loaded) {events : List SerializedEvent}
    (hread : w.repository.eventsAfter entityId loaded.sequence = .ok events)
    (hreplay : loaded.replayAll events = .ok loaded') :
    w.Current entityId loaded' ∨ events = [] ∧
      ∃ snapshot, (w.repository.held entityId).snapshot = some snapshot ∧
        loaded.sequence < snapshot.eventSequence := by
  have hholds := h.kept entityId
  obtain ⟨-, hread⟩ := seq_eq_ok.mp hread
  obtain ⟨k, habove, hk⟩ := hholds.above hstarted.nonneg
  obtain rfl : events = (w.log entityId).drop k := by
    cases hread
    exact habove
  obtain ⟨hfrom, hfold, hsequence, -⟩ := Loaded.replayAll_ok hreplay
  have hle := hstarted.le
  have hhead := hholds.head
  obtain hk | ⟨hlt, hle', -, snapshot, hs, hcovers⟩ := hk
  · left
    rw [List.length_drop] at hsequence
    refine ⟨by omega, ?_⟩
    have hstate := hstarted.state
    rw [show loaded.sequence.toNat = k by omega] at hstate
    rw [Aggregate.fold, ← List.take_append_drop k (w.log entityId), List.foldlM_append]
    exact bind_eq_ok.mpr ⟨_, hstate, hfold⟩
  · right
    refine ⟨?_, snapshot, hs, by omega⟩
    -- the first event above the gap does not continue the load
    cases hdrop : (w.log entityId).drop k with
    | nil => rfl
    | cons first events =>
      rw [hdrop] at hfrom
      have hnumbered := List.take_append_drop k (w.log entityId) ▸ hholds.numbered
      have hlast := (Consecutive.from_append.mp hnumbered).2
      rw [hdrop, List.length_take_of_le (by omega)] at hlast
      have := hfrom.1
      have := hlast.1
      omega

section Load

variable (E kind)

abbrev SafeAmong {α : Type} (post : α → LoadWorld → Prop) (p : LoadProgram α) (w : LoadWorld) :
    Prop :=
  Script.Safe Reads (Relation.ReflTransGen (Writes E kind)) (Sound kind) Eq post p w

/-- A load that returned was current at some moment since the start. -/
def CurrentSince (start : LoadWorld) (entityId : EntityId)
    (result : Except Error (Loaded (kind entityId))) (w : LoadWorld) : Prop :=
  Relation.ReflTransGen (Writes E kind) start w ∧
    ∀ loaded, result = .ok loaded → ∃ moment,
      Relation.ReflTransGen (Writes E kind) start moment ∧
        Relation.ReflTransGen (Writes E kind) moment w ∧ moment.Current entityId loaded

variable {E kind} {start : LoadWorld} {entityId : EntityId}

theorem safe_read (w : LoadWorld) (a : ReadAsk) {post : ReadAnswer a → LoadWorld → Prop}
    (h : ∀ u, post (answerRead u.repository a) u)
    (herror : ∀ error u, post (failedRead error a) u) :
    SafeAmong E kind (fun answer u => Relation.ReflTransGen (Writes E kind) w u ∧ u.Sound kind ∧
      post answer u) (Script.ask a) w := by
  refine Script.Safe.ask fun t hrely hsound answer u hact => ?_
  obtain ⟨rfl, rfl | ⟨error, rfl⟩⟩ := hact
  · exact ⟨rfl, hrely, hsound, h u⟩
  · exact ⟨rfl, hrely, hsound, herror error u⟩

theorem safe_readSnapshot (w : LoadWorld) :
    SafeAmong E kind (fun result u => Relation.ReflTransGen (Writes E kind) w u ∧ u.Sound kind ∧
        ∀ snapshot, result = .ok snapshot → snapshot = u.repository.snapshot entityId)
      (LoadProgram.readSnapshot entityId) w :=
  safe_read w _ (by rintro u _ ⟨⟩; rfl) (by rintro error u _ ⟨⟩)

theorem safe_readEvents (w : LoadWorld) (snapshot : Option SerializedSnapshot) {sequence : Int}
    (hnone : snapshot = none → sequence = 0) :
    SafeAmong E kind (fun result u => Relation.ReflTransGen (Writes E kind) w u ∧ u.Sound kind ∧
        ∀ events, result = .ok events →
          u.repository.eventsAfter entityId sequence = .ok events)
      (LoadProgram.readEvents entityId snapshot sequence) w := by
  cases snapshot with
  | none =>
    obtain rfl := hnone rfl
    exact safe_read w (.events entityId) (fun u events h => h) (by rintro error u _ ⟨⟩)
  | some snapshot =>
    exact safe_read w (.eventsAfter entityId sequence) (fun u events h => h)
      (by rintro error u _ ⟨⟩)

theorem CurrentSince.of_error (hstart : Relation.ReflTransGen (Writes E kind) start w)
    (error : Error) : CurrentSince E kind start entityId (.error error) w :=
  ⟨hstart, by rintro loaded ⟨⟩⟩

theorem start_sequence {snapshot : Option SerializedSnapshot} {loaded : Loaded A}
    (h : Loaded.start A entityId snapshot = .ok loaded) (hnone : snapshot = none) :
    loaded.sequence = 0 := by
  subst hnone
  cases h
  rfl

/-- One attempt: its reads fix a beginning of the log, its rest, and that nothing was cut. -/
theorem safe_loadOnce (w : LoadWorld) (hstart : Relation.ReflTransGen (Writes E kind) start w) :
    SafeAmong E kind (CurrentSince E kind start entityId)
      (LoadProgram.loadOnce (kind entityId) entityId) w := by
  refine .andThen _ (safe_readSnapshot w) (fun e u hu => .of_error (hstart.trans hu.1) e) ?_
  rintro snapshot w₁ ⟨hw₁, hsound₁, hsnapshot⟩
  obtain rfl := hsnapshot snapshot rfl
  have hreach₁ := hstart.trans hw₁
  refine .check (fun e _ => .of_error hreach₁ e) fun loaded hloaded => ?_
  refine .andThen _ (safe_readEvents w₁ _ (start_sequence hloaded))
    (fun e u hu => .of_error (hreach₁.trans hu.1) e) ?_
  rintro events w₂ ⟨hw₂, hsound₂, hread⟩
  have hreach₂ := hreach₁.trans hw₂
  have hstarted := (hsound₁.started hloaded).grows (hsound₁.of_writes hw₂).2
  split
  · refine .andThen _ (safe_readSnapshot w₂)
      (fun e u hu => .of_error (hreach₂.trans hu.1) e) ?_
    rintro again w₃ ⟨hw₃, -, hagain⟩
    obtain rfl := hagain again rfl
    have hreach₃ := hreach₂.trans hw₃
    simp only
    split
    · exact .of_error hreach₃ _
    · rename_i hcovered
      refine ⟨hreach₃, fun loaded' hreplay => ⟨w₂, hreach₂, hw₃, ?_⟩⟩
      obtain hcurrent | ⟨-, snapshot, hs, hlt⟩ :=
        hstarted.replayed hsound₂ (hread events rfl) hreplay
      · exact hcurrent
      · obtain ⟨later, hlater, hle⟩ := ((hsound₂.of_writes hw₃).2 entityId).2 snapshot hs
        refine absurd ?_ hcovered
        rw [MemRepository.snapshot, hlater]
        exact hlt.trans_le hle
  · rename_i hne
    refine ⟨hreach₂, fun loaded' hreplay => ⟨w₂, hreach₂, .refl, ?_⟩⟩
    obtain hcurrent | ⟨hnil, -⟩ := hstarted.replayed hsound₂ (hread events rfl) hreplay
    · exact hcurrent
    · exact absurd (by simp [hnil]) hne

theorem safe_loadRetrying (retries : Nat) (w : LoadWorld)
    (hstart : Relation.ReflTransGen (Writes E kind) start w) :
    SafeAmong E kind (CurrentSince E kind start entityId)
      (LoadProgram.loadRetrying (kind entityId) entityId retries) w := by
  induction retries generalizing w with
  | zero => exact safe_loadOnce w hstart
  | succ retries ih =>
    refine (safe_loadOnce w hstart).bind fun result u hu => ?_
    cases result with
    | ok loaded => exact hu
    | error error =>
      simp only
      split
      · exact ih u hu.1
      · exact hu

/-- A load that returns has folded all the events the stream had at one moment since it started. -/
theorem load_current {start w : LoadWorld} {entityId : EntityId} (hsound : start.Sound kind)
    {threads : Unit → LoadProgram (Except Error (Loaded (kind entityId)))}
    (hreach : Pool.Reaches (fun _ => Reads) (Writes E kind)
      (start, fun _ => LoadProgram.load (kind entityId) entityId) (w, threads))
    {loaded : Loaded (kind entityId)} (hdone : threads () = .done (.ok loaded)) :
    ∃ moment, Relation.ReflTransGen (Writes E kind) start moment ∧
      Relation.ReflTransGen (Writes E kind) moment w ∧
      (moment.repository.held entityId).head = loaded.sequence ∧
      (kind entityId).fold (moment.log entityId) = .ok loaded.state := by
  have hpost : ∀ (i : Unit) result s t, CurrentSince E kind start entityId result s →
      Relation.ReflTransGen (Writes E kind) s t → CurrentSince E kind start entityId result t := by
    rintro - result s t ⟨hs, hcurrent⟩ ht
    refine ⟨hs.trans ht, fun loaded hloaded => ?_⟩
    obtain ⟨moment, hstart, hend, hmoment⟩ := hcurrent loaded hloaded
    exact ⟨moment, hstart, hend.trans ht, hmoment⟩
  obtain ⟨-, hsafe⟩ := Pool.safe_of_reaches (fun _ _ => .refl) (fun _ _ _ _ => .trans) hpost
    (by rintro i s t hinv rfl; exact ⟨hinv, fun _ _ => .refl⟩)
    (fun s t hinv hstep => ⟨hstep.keeps hinv, fun _ => .single hstep⟩) hreach hsound
    (fun _ => safe_loadRetrying _ start .refl)
  have hload := hsafe ()
  simp only at hload
  rw [hdone] at hload
  exact hload.2 loaded rfl

end Load

section Staged

theorem serializeEvents_ok (hA : A.RoundTrips) {entityId : EntityId} {metadata : Metadata}
    {after : Int} {decided : List A.Event} {events : List SerializedEvent}
    (h : serializeEvents A entityId metadata after decided = .ok events) (state : A.State) :
    events.foldlM A.replay state = .ok (decided.foldl A.apply state) ∧
      ∀ first, events.head? = some first → first.sequence = after + 1 := by
  induction decided generalizing after events state with
  | nil =>
    cases h
    exact ⟨rfl, by rintro _ ⟨⟩⟩
  | cons event decided ih =>
    obtain ⟨-, h⟩ := seq_eq_ok.mp h
    obtain ⟨⟨version, payload⟩, hencoded, h⟩ := bind_eq_ok.mp h
    obtain ⟨more, hmore, h⟩ := bind_eq_ok.mp h
    cases h
    refine ⟨bind_eq_ok.mpr ⟨_, map_eq_ok.mpr ⟨event, hA.events hencoded rfl, rfl⟩, ?_⟩, ?_⟩
    · exact (ih hmore _).1
    · rintro _ ⟨⟩
      rfl

theorem commitSnapshot_encodes {interval : Int} {loaded : Loaded A} {appended : Nat}
    {state : A.State} {new : NewSnapshot}
    (h : commitSnapshot interval loaded appended state = .ok (some new)) :
    A.encode state = .ok new.payload := by
  obtain ⟨due, -, h⟩ := bind_eq_ok.mp h
  split at h
  · cases h
  · obtain ⟨payload, hpayload, h⟩ := bind_eq_ok.mp h
    obtain ⟨size, -, h⟩ := bind_eq_ok.mp h
    split at h <;> cases h
    exact hpayload

/-- A snapshot that a commit stores is the commit's own, at the end of the extended log. -/
theorem committed_snapshot (h : w.Kept) {entityId : EntityId}
    (hs : ((w.committed (commitAsTransaction E c) (w.repository.commit E c)).repository.held
      entityId).snapshot = some snapshot) :
    (w.repository.held entityId).snapshot = some snapshot ∨ entityId = c.entityId ∧
      (w.committed (commitAsTransaction E c) (w.repository.commit E c)).log c.entityId =
        w.log c.entityId ++ c.events ∧
      (∃ first, c.events.head? = some first ∧
        first.sequence = (w.log c.entityId).length + 1) ∧
      snapshot.eventSequence = (w.log c.entityId ++ c.events).length ∧
      ∃ new, c.snapshot = some new ∧ snapshot.payload = new.payload := by
  rw [MemRepository.commit] at hs ⊢
  obtain ⟨r, heq, hstreams⟩ | ⟨n, r, hn, heq, hpass, hstreams⟩ :=
    committed_cases E w (commitAsTransaction E c)
  · rw [heq, MemRepository.held, hstreams] at hs
    exact .inl hs
  rw [heq] at hs ⊢
  obtain ⟨hnormal, hsub⟩ := commitAsTransaction_ok hn
  obtain ⟨d, hd, rfl, hheld, hlog⟩ | ⟨hheld, -⟩ := applied_cases hnormal hstreams entityId
  · have hholds := h d.entityId
    have hv := hnormal.valid d hd
    obtain hsame | ⟨new, stored, hnew, hne, hstored, hpayload, hend⟩ :=
      snapshot_applyStream hholds hv (hpass d hd)
    · exact .inl (by rwa [hheld, hsame] at hs)
    · obtain rfl : stored = snapshot := by simpa [hheld, hstored] using hs
      obtain ⟨first, more, hevents⟩ := List.exists_cons_of_ne_nil hne
      have hfirst : d.events.head? = some first := by rw [hevents]; rfl
      have hsequence := first_of_checkWrite hholds hv (hpass d hd) hfirst
      obtain ⟨-, rfl⟩ := hsub d hd
      exact .inr ⟨rfl, hlog, ⟨first, hfirst, hsequence⟩, hend, new, hnew, hpayload⟩
  · exact .inl (hheld ▸ hs)

/-- What the store stages from a load, and commits at any later moment, is such a write. -/
theorem staged_writes {entityId : EntityId} {moment : LoadWorld}
    {loaded next : Loaded (kind entityId)} {decided : List (kind entityId).Event}
    {metadata : Metadata} {interval : Int}
    (hA : (kind entityId).RoundTrips) (hid : loaded.entityId = entityId)
    (hsound : moment.Sound kind) (hcurrent : moment.Current entityId loaded)
    (hlater : Relation.ReflTransGen (Writes E kind) moment w)
    (hstage : stage interval loaded decided metadata = .ok (next, c)) :
    Writes E kind w (w.committed (commitAsTransaction E c) (w.repository.commit E c)) := by
  obtain ⟨hsound', hgrows⟩ := hsound.of_writes hlater
  obtain ⟨events, hevents, hstage⟩ := bind_eq_ok.mp hstage
  obtain ⟨new, hnew, hstage⟩ := bind_eq_ok.mp hstage
  obtain ⟨projections, -, ⟨⟩⟩ := bind_eq_ok.mp hstage
  refine ⟨.commit w _, fun other snapshot hs => ?_⟩
  obtain hbefore | ⟨hother, hlog, ⟨first, hfirst, hsequence⟩, hend, _, rfl, hpayload⟩ :=
    committed_snapshot hsound'.kept hs
  · exact .inl hbefore
  obtain rfl := hother.trans hid
  simp only [hid] at hlog hsequence hend ⊢
  -- The first event goes on from the load, so the log is still the one it folded.
  obtain ⟨hfold, hfrom⟩ := serializeEvents_ok hA hevents loaded.state
  have hstart := hfrom first hfirst
  have hlength := hcurrent.1.symm.trans (hsound.kept other).head
  have hsame : moment.log other = w.log other := (hgrows other).1.eq_of_length (by omega)
  refine .inr ⟨by omega, by rw [hlog, hend], decided.foldl (kind other).apply loaded.state,
    ?_, ?_⟩
  · rw [hlog, hend, Int.toNat_natCast, List.take_length, Aggregate.fold, List.foldlM_append]
    exact bind_eq_ok.mpr ⟨_, hsame ▸ hcurrent.2, hfold⟩
  · rw [hpayload]
    exact hA.states (commitSnapshot_encodes hnew)

theorem compactBelow_writes (E : Env) (w : LoadWorld) (entityId : EntityId) (through : Int) :
    Writes E kind w ⟨(w.repository.compactBelow entityId through).2, w.log⟩ := by
  refine ⟨.compactBelow w entityId through, fun other snapshot hs => .inl ?_⟩
  obtain hsame | ⟨stream, -, hget, -, -, hcompact⟩ :=
    w.repository.compactBelow_cases entityId through
  · rwa [hsame] at hs
  · rw [hcompact, MemRepository.held] at hs
    by_cases hne : other = entityId
    · subst hne
      rw [OrdMap.get_insert_self] at hs
      rwa [MemRepository.held, hget]
    · rwa [OrdMap.get_insert_ne _ _ hne] at hs

end Staged

def tally : Aggregate where
  entityType := "t"
  State := Nat
  Event := Unit
  typeOf _ := "e"
  events _ := some ⟨1, fun _ => .ok .empty, fun _ => .ok (), []⟩
  encode n := .ok ⟨Array.replicate n 48⟩
  decode payload := .ok payload.size
  initial := (0 : Nat)
  apply n _ := Nat.succ n
  snapshotInterval := some 1
  projectors := []

def tallied (k : Nat) : Commit where
  entityId := "a"
  events := [⟨EventId.forEvent "a" k, k, "e", 1, "a", "t", .empty, {}⟩]
  snapshot := some ⟨"t", k, ⟨Array.replicate k 48⟩⟩

def committing (w : LoadWorld) (c : Commit) : LoadWorld :=
  w.committed (commitAsTransaction .plain c) (w.repository.commit .plain c)

def compacting (w : LoadWorld) (entityId : EntityId) (through : Int) : LoadWorld :=
  ⟨(w.repository.compactBelow entityId through).2, w.log⟩

def reading : LoadWorld × (Unit → LoadProgram (Except Error (Loaded tally))) → List Unit →
    LoadWorld × (Unit → LoadProgram (Except Error (Loaded tally))) :=
  Pool.turns fun _ w a => (answerRead w.repository a, w)

def beginning : LoadWorld := committing ⟨.new, fun _ => []⟩ (tallied 1)

def paused : LoadWorld × (Unit → LoadProgram (Except Error (Loaded tally))) :=
  reading (beginning, fun _ => LoadProgram.load tally "a") [()]

/-- The second event and its snapshot land, then the compaction of both events; the load
reads on. -/
def resumed : LoadWorld × (Unit → LoadProgram (Except Error (Loaded tally))) :=
  reading (compacting (committing paused.1 (tallied 2)) "a" 2, paused.2) (List.replicate 5 ())

def returnedAt : LoadProgram (Except Error (Loaded tally)) → Option Int
  | .done (.ok loaded) => some loaded.sequence
  | _ => none

theorem of_returnedAt {p : LoadProgram (Except Error (Loaded tally))} {sequence : Int}
    (h : returnedAt p = some sequence) :
    ∃ loaded, p = .done (.ok loaded) ∧ loaded.sequence = sequence := by
  unfold returnedAt at h
  split at h
  · exact ⟨_, rfl, Option.some.inj h⟩
  · cases h

theorem tally_roundTrips : tally.RoundTrips where
  states := by
    rintro n _ ⟨⟩
    exact congrArg Except.ok Array.size_replicate
  events := by
    intro event stored h _
    obtain ⟨hversion, -⟩ := Prod.mk.inj (Except.ok.inj h)
    simp only [replayEvent, tally, upcastPayload, ← hversion]
    rfl

theorem writes_committing {w : LoadWorld} {k : Nat} {next : Loaded tally}
    (hsound : w.Sound fun _ => tally)
    (hcurrent : w.Current "a" (⟨"a", k, k, k, []⟩ : Loaded tally))
    (hstage : stage 0 (⟨"a", k, k, k, []⟩ : Loaded tally) [()] {} = .ok (next, tallied (k + 1))) :
    Writes .plain (fun _ => tally) w (committing w (tallied (k + 1))) :=
  staged_writes tally_roundTrips rfl hsound hcurrent .refl hstage

theorem sound_beginning : beginning.Sound fun _ => tally :=
  (writes_committing sound_new ⟨rfl, rfl⟩ rfl).keeps sound_new

theorem reaches_resumed : Pool.Reaches (fun _ => Reads) (Writes .plain fun _ => tally)
    (beginning, fun _ => LoadProgram.load tally "a") resumed := by
  have hact : ∀ (_ : Unit) w a, Reads w a (answerRead w.repository a) w := fun _ w a =>
    ⟨rfl, .inl rfl⟩
  have hpaused : Pool.Reaches (fun _ => Reads) (Writes .plain fun _ => tally)
      (beginning, fun _ => LoadProgram.load tally "a") paused := Pool.reaches_turns hact _ [()]
  have hcommit : Writes .plain (fun _ => tally) paused.1 (committing paused.1 (tallied 2)) :=
    writes_committing sound_beginning ⟨rfl, rfl⟩ rfl
  exact ((hpaused.tail (.other hcommit)).tail (.other (compactBelow_writes _ _ "a" 2))).trans
    (Pool.reaches_turns hact _ (List.replicate 5 ()))

/-- The attempt finds the events gone and starts again from the snapshot that covers them. -/
theorem load_current_of_resumed : ∃ loaded moment, resumed.2 () = .done (.ok loaded) ∧
    loaded.sequence = 2 ∧
    Relation.ReflTransGen (Writes .plain fun _ => tally) beginning moment ∧
    (moment.repository.held "a").head = loaded.sequence ∧
    tally.fold (moment.log "a") = .ok loaded.state := by
  obtain ⟨loaded, hdone, hsequence⟩ :=
    of_returnedAt (show returnedAt (resumed.2 ()) = some 2 by decide +kernel)
  obtain ⟨moment, hstart, -, hhead, hfold⟩ := load_current sound_beginning reaches_resumed hdone
  exact ⟨loaded, moment, hdone, hsequence, hstart, hhead, hfold⟩

/-- Whatever the calls, a stream's log only grows and its head counts it. The stored events are the
log above a floor, which a stored snapshot reaches. -/
theorem streams_kept (hbefore : Relation.ReflTransGen (Calls E) ⟨.new, fun _ => []⟩ w)
    (hafter : Relation.ReflTransGen (Calls E) w w') (entityId : EntityId) :
    w.log entityId <+: w'.log entityId ∧
    (w'.repository.held entityId).head = (w'.log entityId).length ∧
    ∃ floor : Int, 0 ≤ floor ∧
      (∀ k : Int, (w'.repository.held entityId).events[k]? =
        if floor < k ∧ k ≤ (w'.log entityId).length then (w'.log entityId)[(k - 1).toNat]?
        else none) ∧
      (0 < floor → ∃ snapshot, (w'.repository.held entityId).snapshot = some snapshot ∧
        floor ≤ snapshot.eventSequence ∧ snapshot.eventSequence ≤ (w'.log entityId).length) := by
  obtain ⟨hkept', hgrows⟩ := (kept_new.of_calls hbefore).1.of_calls hafter
  have hholds := hkept' entityId
  obtain ⟨floor, hfloor, -, hcovered, hstored⟩ := hholds.stored
  have hhead := hholds.head
  refine ⟨(hgrows entityId).1, hhead, floor, hfloor, hhead ▸ hstored, fun hpos => ?_⟩
  obtain ⟨snapshot, hs, hle⟩ := hcovered hpos
  exact ⟨snapshot, hs, hle, hhead ▸ hholds.covered snapshot hs⟩

theorem streams_kept_of_two :
    beginning.log "a" <+: (compacting (committing beginning (tallied 2)) "a" 2).log "a" := by
  have hfirst : Calls .plain ⟨.new, fun _ => []⟩ beginning := .commit _ (tallied 1)
  have hsecond : Calls .plain beginning (committing beginning (tallied 2)) := .commit _ _
  exact (streams_kept (.single hfirst) (.tail (.single hsecond) (.compactBelow _ "a" 2)) "a").1

end LoadWorld

end EventStore.TypeScript
