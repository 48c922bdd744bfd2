import EventStore.Replay.Regrouping
import EventStore.Replay.Rows

/-!
Replaying the projectors over a run's regrouped events. The view of a replayed commit is the live
one, field by field, its states folded from the stream's events; so the rows are the ones the live
commits left.
-/
namespace EventStore

open Result Program

section Filling

variable {κ : Type} (A : κ → Aggregate) (kindOf : EntityId → κ)

/-- The state of a stream after its part of a commit, folded from the stream's events up
to there. -/
def foldedState (A : Aggregate) (events : List SerializedEvent) (stream : CommitStream) :
    Except Error Bytes := do
  let through := (stream.events.getLast?.map (·.sequence)).getD 0
  let past := events.filter fun e => e.entityId = stream.entityId ∧ e.sequence ≤ through
  let state ← A.fold (past.insertionSort eventBefore)
  (A.encode state).mapError .json

def fillStreams (events : List SerializedEvent) :
    List CommitStream → Except Error (List CommitStream)
  | [] => .ok []
  | stream :: streams => do
    let state ← foldedState (A (kindOf stream.entityId)) events stream
    return { stream with state } :: (← fillStreams events streams)

/-- The caller's part of a replay: every view with its streams' states. -/
def fillStates (events : List SerializedEvent) :
    List CommitView → Except Error (List CommitView)
  | [] => .ok []
  | view :: views => do
    let streams ← fillStreams A kindOf events view.streams
    return { view with streams } :: (← fillStates events views)

end Filling

variable {events : List SerializedEvent}

section Rereading

theorem from_reread {n : Int} (h : Consecutive.From SerializedEvent.sequence n events) :
    Consecutive.From SerializedEvent.sequence n (events.map SerializedEvent.reread) := by
  induction events generalizing n with
  | nil => trivial
  | cons event events ih => exact ⟨h.1, ih h.2⟩

def Write.reread (w : Write) : Write :=
  { w with streams := w.streams.map fun c => { c with events := c.events.map .reread } }

namespace Write

variable {w : Write}

theorem events_reread (w : Write) : w.reread.events = w.events.map .reread := by
  simp [Write.reread, Write.events, List.flatMap_map, List.map_flatMap]

theorem sound_reread (h : w.Sound) : w.reread.Sound := by
  refine ⟨?_, List.pairwise_map.mpr h.sorted, h.views, ?_⟩
  · intro c hc
    obtain ⟨d, hd, rfl⟩ := List.mem_map.mp hc
    have hvalid := h.valid d hd
    have hhead : ∀ first, (d.events.map SerializedEvent.reread).head? = some first →
        ∃ e, d.events.head? = some e ∧ first = e.reread := by
      intro first hfirst
      rw [List.head?_map, Option.map_eq_some_iff] at hfirst
      obtain ⟨e, he, rfl⟩ := hfirst
      exact ⟨e, he, rfl⟩
    refine ⟨?_, ?_, ?_, ?_, ?_, hvalid.views, ?_⟩
    · intro event hevent
      obtain ⟨e, he, rfl⟩ := List.mem_map.mp hevent
      exact hvalid.identity e he
    · intro first hfirst event hevent
      obtain ⟨e, he, rfl⟩ := hhead first hfirst
      obtain ⟨e', he', rfl⟩ := List.mem_map.mp hevent
      exact hvalid.entityType e he e' he'
    · intro first hfirst
      obtain ⟨e, he, rfl⟩ := hhead first hfirst
      exact hvalid.positive e he
    · intro first hfirst
      obtain ⟨e, he, rfl⟩ := hhead first hfirst
      exact from_reread (hvalid.consecutive e he)
    · intro first hfirst
      obtain ⟨e, he, rfl⟩ := hhead first hfirst
      exact hvalid.snapshot e he
    · exact fun hnil => hvalid.bare (List.map_eq_nil_iff.mp hnil)
  · intro fence hfence c hc
    obtain ⟨d, hd, rfl⟩ := List.mem_map.mp hc
    exact h.unwritten fence hfence d hd

theorem writing_reread (w : Write) :
    w.reread.writing = w.writing.map fun c => { c with events := c.events.map .reread } := by
  simp only [writing, Write.reread, List.filter_map]
  congr 1
  refine List.filter_congr fun c _ => ?_
  simp

end Write

variable {batches : List (List SerializedEvent)}

theorem streamsOrdered_reread {a b : List SerializedEvent} :
    StreamsOrdered (a.map .reread) (b.map .reread) ↔ StreamsOrdered a b := by
  simp only [StreamsOrdered, List.forall_mem_map, SerializedEvent.reread]

theorem Batches.reread (h : Batches batches) :
    Batches (batches.map fun batch => batch.map .reread) := by
  refine ⟨?_, ?_, ?_, ?_⟩
  · simp only [List.forall_mem_map]
    exact fun batch hbatch => List.pairwise_map.mpr (h.ordered batch hbatch)
  · simp only [List.forall_mem_map]
    exact fun batch hbatch hnil => h.written batch hbatch (List.map_eq_nil_iff.mp hnil)
  · simp only [List.forall_mem_map]
    exact h.commitId
  · exact List.pairwise_map.mpr (h.streams.imp streamsOrdered_reread.mpr)

theorem Separated.reread (h : Separated batches) :
    Separated (batches.map fun batch => batch.map .reread) := by
  constructor
  · simp only [List.forall_mem_map]
    intro batch hbatch e he hempty
    rw [h.single batch hbatch e he hempty]
    rfl
  · refine List.pairwise_map.mpr (h.distinct.imp ?_)
    simp only [List.forall_mem_map]
    exact fun hab => hab

end Rereading

section Owners

variable {projectors : List CommitProjector} {commit : CommitView} {items : List ProjectedView}

theorem projectCommit_of_application (h : projectApplication projectors commit = .ok items) :
    projectCommit projectors commit = .ok items := by
  unfold projectApplication at h
  split at h
  · cases h
  · exact h

end Owners

theorem foldFrom_reread {A : Aggregate} {log : List SerializedEvent}
    (h : ∀ event ∈ log, ∀ metadata, A.read { event with metadata } = A.read event)
    (state : A.State) : A.foldFrom state (log.map .reread) = A.foldFrom state log := by
  induction log generalizing state with
  | nil => rfl
  | cons event log ih =>
    rw [List.forall_mem_cons] at h
    simp only [List.map_cons, Aggregate.foldFrom]
    rw [show A.read event.reread = A.read event from h.1 _]
    cases A.read event with
    | error error => rfl
    | ok typed => exact ih h.2 _

variable {stored : List SerializedEvent}

namespace World

variable {κ : Type} {A : κ → Aggregate} {kindOf : EntityId → κ} {ι : Type}
variable {E : Env} {current : Prop} {x : ι → Operation A kindOf} {w : World ι}
  {projectors : List CommitProjector}

variable {k : Nat}

/-- What a commit of the run wrote to a stream, between what came before and after. -/
theorem Consistent.log_split (hw : w.Whole) {entry : Applied ι} (hk : w.applied[k]? = some entry)
    {c : Commit Empty} (hc : c ∈ entry.write.writing) :
    ∃ later, w.log c.entityId =
      logOf (w.applied.take k) c.entityId ++ c.events ++ later := by
  obtain ⟨hlt, rfl⟩ := List.getElem?_eq_some_iff.mp hk
  have hsound := (hw.writes w.applied[k] (List.getElem_mem hlt)).1
  have hsplit : w.applied = w.applied.take k ++ [w.applied[k]] ++ w.applied.drop (k + 1) := by
    simp
  have hwriter : writerOf w.applied[k].write.streams c.entityId = some c :=
    writerOf_of_mem hsound.sorted (Write.mem_writing.mp hc).1 (Write.mem_writing.mp hc).2
  refine ⟨logOf (w.applied.drop (k + 1)) c.entityId, ?_⟩
  rw [log_eq]
  conv_lhs => rw [hsplit]
  rw [logOf_append, logOf_append, logOf_singleton hsound, hwriter]

variable {entityId : EntityId}

theorem Whole.place (hw : w.Whole) {before later : List SerializedEvent}
    (hsplit : w.log entityId = before ++ events ++ later) :
    Consecutive.From SerializedEvent.sequence (1 + before.length) events ∧
      Consecutive.From SerializedEvent.sequence (1 + (before ++ events).length) later := by
  have hnumbered : Consecutive.From SerializedEvent.sequence 1 (w.log entityId) :=
    (hw.sound entityId).numbered
  rw [hsplit, Consecutive.from_append, Consecutive.from_append] at hnumbered
  exact ⟨hnumbered.1.2, hnumbered.2⟩

/-- The stored events of a stream up to a commit, read back, are its log up to there. -/
theorem Whole.past (hw : w.Whole) (hstored : stored.Perm (w.stores.allEvents.map .reread))
    {before later : List SerializedEvent} (hsplit : w.log entityId = before ++ events ++ later) :
    (stored.filter fun e => e.entityId = entityId ∧
        e.sequence ≤ ((before ++ events).length : Int)).insertionSort eventBefore =
      (before ++ events).map .reread := by
  have hall : stored.Perm (w.history.written.map .reread) := by
    refine hstored.trans (hw.allEvents_perm.map _ |>.trans (.of_eq ?_))
    simp [history, History.written, List.flatMap_map]
  have hnumbered : Consecutive.From SerializedEvent.sequence 1 (before ++ events) := by
    have h : Consecutive.From SerializedEvent.sequence 1 (w.log entityId) :=
      (hw.sound entityId).numbered
    rw [hsplit, Consecutive.from_append] at h
    exact h.1
  have hlater := (hw.place hsplit).2
  have hmem : ∀ e, e ∈ w.log entityId ↔ e ∈ w.history.written ∧ e.entityId = entityId := by
    intro e
    simp [World.log, History.log, List.mem_filter]
  refine eq_of_precedes (sorted_of_distinct ?_) ?_ fun e => ?_
  · refine List.Pairwise.filter _ ((hall.pairwise_iff ?_).mpr ?_)
    · rintro a b hab ⟨hid, hsequence⟩
      exact hab ⟨hid.symm, hsequence.symm⟩
    · have hnodup := History.nodup_addresses fun other =>
        Consecutive.nodup_map (hw.sound other).numbered
      rw [List.nodup_iff_pairwise_ne, List.pairwise_map] at hnodup
      refine List.pairwise_map.mpr (hnodup.imp ?_)
      rintro a b hab ⟨hid, hsequence⟩
      exact hab (Prod.ext hid hsequence)
  · refine List.pairwise_map.mpr ((Consecutive.ordered hnumbered).imp_of_mem ?_)
    intro a b ha hb hlt
    have hid : ∀ e ∈ before ++ events, e.entityId = entityId := fun e he =>
      ((hmem e).mp (by rw [hsplit]; exact List.mem_append_left _ he)).2
    exact .inr ⟨(hid a ha).trans (hid b hb).symm, hlt⟩
  · rw [(List.perm_insertionSort _ _).mem_iff, List.mem_filter, hall.mem_iff, List.mem_map,
      List.mem_map]
    constructor
    · rintro ⟨⟨e, he, rfl⟩, hplace⟩
      have hplace : e.entityId = entityId ∧ e.sequence ≤ ((before ++ events).length : Int) := by
        simpa [SerializedEvent.reread] using hplace
      have hlog := (hmem e).mpr ⟨he, hplace.1⟩
      rw [hsplit] at hlog
      refine ⟨e, (List.mem_append.mp hlog).resolve_right fun hin => ?_, rfl⟩
      have := Consecutive.number_of_mem hlater hin
      omega
    · rintro ⟨e, he, rfl⟩
      have hlog := (hmem e).mp (by rw [hsplit]; exact List.mem_append_left _ he)
      have := Consecutive.number_of_mem hnumbered he
      refine ⟨⟨e, hlog.1, rfl⟩, ?_⟩
      exact decide_eq_true ⟨hlog.2, by show e.sequence ≤ _; omega⟩

/-- The events of a stream replay the same way under any metadata. -/
theorem Consistent.steady (h : w.Consistent E current x) (hw : w.Whole) {event : SerializedEvent}
    (hevent : event ∈ w.log entityId) (metadata : Metadata) :
    (A (kindOf entityId)).read { event with metadata } = (A (kindOf entityId)).read event := by
  obtain ⟨hwritten, hid⟩ := List.mem_filter.mp hevent
  rw [beq_iff_eq] at hid
  obtain ⟨write, hwrite, hevent⟩ := List.mem_flatMap.mp hwritten
  obtain ⟨entry, hentry, rfl⟩ := List.mem_map.mp hwrite
  obtain ⟨c, hc, hevent⟩ := List.mem_flatMap.mp hevent
  obtain ⟨k, hk⟩ := List.mem_iff_getElem?.mp hentry
  obtain ⟨heq, i, -, hsubmits⟩ := h.applied k entry hk
  obtain ⟨hsound, -⟩ := hw.writes entry hentry
  have hentity : c.entityId = entityId :=
    ((hsound.valid c hc).identity event hevent).1.symm.trans hid
  obtain ⟨shown, state, bytes, hcontinues, -⟩ :=
    hsubmits.continues.shows (heq ▸ hc) (List.ne_nil_of_mem hevent)
  rw [← hentity]
  exact hcontinues.steady event hevent metadata

/-- Folding a stream up to a commit gives the state its projectors were shown. -/
theorem Consistent.foldedState (h : w.Consistent E current x) (hw : w.Whole)
    (hstored : stored.Perm (w.stores.allEvents.map .reread)) {entry : Applied ι}
    (hk : w.applied[k]? = some entry) {c : Commit Empty} (hc : c ∈ entry.write.writing)
    {state : (A (kindOf c.entityId)).State}
    (hcontinues : Continues (A (kindOf c.entityId)) (logOf (w.applied.take k) c.entityId) c.events
      c.snapshot state) (entityType : EntityType) (bytes : Bytes) :
    EventStore.foldedState (A (kindOf c.entityId)) stored
        ⟨c.entityId, entityType, c.events.map .reread, bytes⟩ =
      ((A (kindOf c.entityId)).encode state).mapError .json := by
  obtain ⟨later, hsplit⟩ := Consistent.log_split hw hk hc
  have hplace := (hw.place hsplit).1
  have hne := hcontinues.written
  obtain ⟨first, hfirst⟩ : ∃ first, c.events.head? = some first := ⟨_, List.head?_eq_some_head hne⟩
  obtain ⟨last, hlast⟩ : ∃ last, c.events.getLast? = some last :=
    ⟨_, List.getLast?_eq_some_getLast hne⟩
  have hadmitted : first.sequence = (logOf (w.applied.take k) c.entityId).length + 1 := by
    have := Consecutive.number_of_getElem? hplace (by rwa [← List.head?_eq_getElem?])
    omega
  have hthrough : ((c.events.map SerializedEvent.reread).getLast?.map (·.sequence)).getD 0 =
      ((logOf (w.applied.take k) c.entityId ++ c.events).length : Int) := by
    have := Consecutive.number_of_getLast? hplace hlast
    rw [List.getLast?_map, hlast, List.length_append]
    simp only [Option.map_some, Option.getD_some, SerializedEvent.reread]
    push_cast
    omega
  have hsteady : ∀ event ∈ logOf (w.applied.take k) c.entityId ++ c.events, ∀ metadata,
      (A (kindOf c.entityId)).read { event with metadata } =
        (A (kindOf c.entityId)).read event := fun event hevent metadata =>
    h.steady hw (by rw [hsplit]; exact List.mem_append_left _ hevent) metadata
  have hfold : (A (kindOf c.entityId)).fold
      ((logOf (w.applied.take k) c.entityId ++ c.events).map .reread) = .ok state := by
    rw [Aggregate.fold, foldFrom_reread hsteady]
    exact hcontinues.fold_of_admitted hfirst hadmitted
  simp only [EventStore.foldedState, hthrough]
  rw [hw.past hstored hsplit, hfold]
  rfl

/-- The streams of a replayed view, filled with their states, are the live ones. -/
theorem Consistent.fillStreams (h : w.Consistent E current x) (hw : w.Whole)
    (hstored : stored.Perm (w.stores.allEvents.map .reread)) {entry : Applied ι}
    (hk : w.applied[k]? = some entry) (hprojectors : projectors ≠ [])
    {writing : List (Commit Empty)} {shown : List CommitStream}
    (hmem : ∀ c ∈ writing, c ∈ entry.write.writing)
    (hshown : List.Forall₂ (fun c => Shows (A (kindOf c.entityId)) projectors
      (logOf (w.applied.take k) c.entityId) c.entityId c.events c.snapshot) writing shown) :
    EventStore.fillStreams A kindOf stored (writing.map fun c => ⟨c.entityId,
      ((c.events.map SerializedEvent.reread).head?.map (·.entityType)).getD "",
      c.events.map .reread, .empty⟩) = .ok shown := by
  induction hshown with
  | nil => rfl
  | @cons c stream writing shown hstream hshown ih =>
    rw [List.forall_mem_cons] at hmem
    obtain ⟨state, bytes, hcontinues, hbytes, rfl⟩ := hstream
    obtain ⟨first, hfirst⟩ : ∃ first, c.events.head? = some first :=
      ⟨_, List.head?_eq_some_head hcontinues.written⟩
    have htype : ((c.events.map SerializedEvent.reread).head?.map (·.entityType)).getD "" =
        (A (kindOf c.entityId)).entityType := by
      rw [List.head?_map, hfirst]
      exact hcontinues.entityType first (List.mem_of_mem_head? hfirst)
    simp only [List.map_cons, EventStore.fillStreams, htype]
    rw [h.foldedState hw hstored hk hmem.1 hcontinues, hbytes hprojectors, ih hmem.2]
    rfl

/-- Replaying a commit projects what it projected live. -/
theorem Consistent.projectCommit (h : w.Consistent E current x) (hw : w.Whole)
    (hx : ∀ i, (x i).projectors = projectors)
    (hstored : stored.Perm (w.stores.allEvents.map .reread)) {entry : Applied ι}
    (hk : w.applied[k]? = some entry) {streams : List CommitStream}
    (hfill : EventStore.fillStreams A kindOf stored entry.write.reread.view.streams = .ok streams) :
    EventStore.projectCommit projectors ⟨entry.write.reread.view.commitId, streams⟩ =
      .ok entry.write.views := by
  obtain ⟨heq, i, -, hsubmits⟩ := h.applied k entry hk
  have hcontinues := hsubmits.continues
  rw [hx i, ← heq] at hcontinues
  have hviewed : entry.write.reread.view.streams = entry.write.writing.map fun c => ⟨c.entityId,
      ((c.events.map SerializedEvent.reread).head?.map (·.entityType)).getD "",
      c.events.map .reread, .empty⟩ := by
    rw [Write.view, Write.writing_reread, List.map_map]
    rfl
  cases hcontinues with
  | bare hwriting hviews =>
    rw [hviewed, hwriting] at hfill
    cases hfill
    rw [hviews]
    simp [EventStore.projectCommit, CommitView.eventCount]
  | decided commitId shown hshown hviews hcommitIds =>
    have hlive := projectCommit_of_application hviews
    by_cases hprojectors : projectors = []
    · subst hprojectors
      exact hlive
    rw [hviewed, h.fillStreams hw hstored hk hprojectors (fun c hc => hc) hshown] at hfill
    cases hfill
    cases hwriting : entry.write.writing with
    | nil =>
      rw [hwriting] at hshown
      cases hshown
      simpa [EventStore.projectCommit, CommitView.eventCount] using hlive
    | cons c writing =>
      have hc : c ∈ entry.write.writing := by simp [hwriting]
      obtain ⟨first, rest, hevents⟩ := List.exists_cons_of_ne_nil (Write.mem_writing.mp hc).2
      have hid : entry.write.reread.view.commitId = commitId := by
        rw [Write.view, Write.events_reread, ← Write.events_writing, hwriting,
          List.flatMap_cons, hevents]
        exact hcommitIds c hc first (by simp [hevents])
      rw [hid]
      exact hlive

/-- Every view operation of a commit is owned by a stream it wrote. -/
theorem Consistent.owned (h : w.Consistent E current x) (hw : w.Whole) {entry : Applied ι}
    (hentry : entry ∈ w.applied) {item : ProjectedView} (hitem : item ∈ entry.write.views) :
    ∃ e ∈ entry.write.events, e.entityId = item.op.owner := by
  obtain ⟨k, hk⟩ := List.mem_iff_getElem?.mp hentry
  obtain ⟨heq, i, -, hsubmits⟩ := h.applied k entry hk
  have hcontinues := hsubmits.continues
  rw [← heq] at hcontinues
  cases hcontinues with
  | bare hwriting hviews => simp [hviews] at hitem
  | decided commitId shown hshown hviews hcommitIds =>
    obtain ⟨stream, hstream, hid⟩ :=
      projectCommit_owner (projectCommit_of_application hviews) item hitem
    obtain ⟨j, hj, rfl⟩ := List.mem_iff_getElem.mp hstream
    have hj' : j < entry.write.writing.length := by
      rw [hshown.length_eq]
      exact hj
    obtain ⟨state, bytes, -, -, hnew⟩ := hshown.get hj' hj
    have hc := List.getElem_mem hj'
    obtain ⟨first, rest, hevents⟩ := List.exists_cons_of_ne_nil (Write.mem_writing.mp hc).2
    have hfirst : first ∈ entry.write.writing[j].events := by simp [hevents]
    refine ⟨first, ?_, ?_⟩
    · rw [← Write.events_writing]
      exact List.mem_flatMap.mpr ⟨_, hc, hfirst⟩
    · have hvalid := (hw.writes entry hentry).1.valid _ (Write.mem_writing.mp hc).1
      rw [(hvalid.identity first hfirst).1, ← hid]
      rw [List.get_eq_getElem, List.get_eq_getElem] at hnew
      rw [hnew]
      rfl

theorem Consistent.views_bare (h : w.Consistent E current x) (hw : w.Whole) {entry : Applied ι}
    (hentry : entry ∈ w.applied) (hnone : entry.write.events = []) : entry.write.views = [] := by
  rw [List.eq_nil_iff_forall_not_mem]
  intro item hitem
  obtain ⟨e, he, -⟩ := h.owned hw hentry hitem
  rw [hnone] at he
  cases he

end World

theorem flatMap_views_filter {ι : Type} {applied : List (Applied ι)}
    (h : ∀ entry ∈ applied, entry.write.events = [] → entry.write.views = []) :
    applied.flatMap (·.write.views) =
      (applied.filter fun entry => !entry.write.events.isEmpty).flatMap (·.write.views) := by
  induction applied with
  | nil => rfl
  | cons entry applied ih =>
    rw [List.forall_mem_cons] at h
    rw [List.flatMap_cons, List.filter_cons, ih h.2]
    split
    · rfl
    · rename_i hnone
      rw [h.1 (by simpa using hnone), List.nil_append]

section Runs

open World

variable {κ : Type} {A : κ → Aggregate} {kindOf : EntityId → κ} {ι : Type}
variable {E : Env} {current : Prop} {x : ι → Operation A kindOf} {w : World ι}
  {projectors : List CommitProjector}

/-- Replaying commits of the run applies the operations they wrote, in the given order. -/
theorem replayFrom_entries (h : w.Consistent E current x) (hw : w.Whole)
    (hx : ∀ i, (x i).projectors = projectors)
    (hstored : stored.Perm (w.stores.allEvents.map .reread)) {entries : List (Applied ι)}
    (hentries : ∀ entry ∈ entries, entry ∈ w.applied) {filled : List CommitView}
    (hfill : fillStates A kindOf stored
      (entries.map fun entry => commitViewOf (entry.write.events.map .reread)) = .ok filled)
    {replay replay' : ViewReplay} (hreplay : replayFrom projectors replay filled = .ok replay') :
    replay.applyAll (entries.flatMap (·.write.views)) = .ok replay' := by
  induction entries generalizing filled replay with
  | nil =>
    cases hfill
    exact hreplay
  | cons entry entries ih =>
    rw [List.forall_mem_cons] at hentries
    obtain ⟨k, hk⟩ := List.mem_iff_getElem?.mp hentries.1
    have hsound := (hw.writes entry hentries.1).1
    simp only [List.map_cons, fillStates, bind_eq_ok] at hfill
    obtain ⟨streams, hstreams, rest, hrest, hfill⟩ := hfill
    cases hfill
    rw [← Write.events_reread, Write.commitViewOf_events (Write.sound_reread hsound)]
      at hstreams hreplay
    simp only [replayFrom] at hreplay
    obtain ⟨items, hitems, hreplay⟩ := bind_eq_ok.mp hreplay
    rw [h.projectCommit hw hx hstored hk hstreams] at hitems
    cases hitems
    obtain ⟨next, hnext, hreplay⟩ := bind_eq_ok.mp hreplay
    rw [List.flatMap_cons, ViewReplay.applyAll_append, hnext]
    exact ih hentries.2 hrest hreplay

variable [DecidableEq ι] [DecidableEq κ]

/-- In a run without compaction whose commits have IDs of their own, a replay that succeeds returns
exactly the live rows. -/
theorem replay_reproduces_views (E : Env) (hA : ∀ kind, (A kind).RoundTrips)
    (projectors : List CommitProjector) (x : ι → Operation A kindOf) (htyped : ∀ i, (x i).Typed)
    (hx : ∀ i, (x i).projectors = projectors) (w : World ι)
    (threads : ι → Program (Option ((entityId : EntityId) × Loaded (A (kindOf entityId)))))
    (hreach : Pool.Reaches (ActsWhen E fun _ a => a.compacts = false) (Undisturbed E)
      (World.start .empty, fun i => (x i).program E) (w, threads))
    (hown : ∀ (k : Nat) (entry : Applied ι), w.applied[k]? = some entry →
      entry.OwnId (w.applied.take k))
    (stored : List SerializedEvent) (hstored : stored.Perm (w.stores.allEvents.map .reread))
    (views filled : List CommitView) (rows : List ViewRow)
    (hgroup : groupCommits stored = .ok views)
    (hfill : fillStates A kindOf stored views = .ok filled)
    (hreplay : replayViews projectors filled = .ok rows) :
    rows = w.stores.views.toList.map (·.2) := by
  have hw : w.Whole := Pool.invariant (J := World.Whole)
    (fun i s a answer s' hs hact => hs.acts hact.1 hact.2)
    (fun s s' hs hmove => hs.undisturbed hmove) hreach whole_start
  have hmoves : Pool.Reaches (ActsWhen E fun _ a => a.compacts = false) (Moves E noOne)
      (World.start .empty, fun i => (x i).program E) (w, threads) := by
    refine Relation.ReflTransGen.mono (fun c c' hstep => ?_) _ _ hreach
    cases hstep with
    | other h => exact .other h.moves
    | call hi h => exact .call hi h
  obtain ⟨hconsistent, -⟩ : w.Consistent E False x ∧ _ :=
    consistent_of_reaches hA False.elim htyped hmoves
  have huniform : ∀ entry ∈ w.applied, entry.request.Uniform := by
    intro entry hentry a ha b hb
    obtain ⟨k, hk⟩ := List.mem_iff_getElem?.mp hentry
    obtain ⟨-, i, -, hsubmits⟩ := hconsistent.applied k entry hk
    rw [← Write.events_writing] at ha hb
    obtain ⟨c, hc, ha⟩ := List.mem_flatMap.mp ha
    obtain ⟨d, hd, hb⟩ := List.mem_flatMap.mp hb
    cases hsubmits.continues with
    | bare hwriting hviews => simp [hwriting] at hc
    | decided commitId shown hshown hviews hcommitIds =>
      rw [hcommitIds c hc a ha, hcommitIds d hd b hb]
  have hbatches := (hw.batches huniform).reread
  have hsep := (separated_batches.mpr hown).reread
  have hperm :
      stored.Perm (w.batches.map fun batch => batch.map SerializedEvent.reread).flatten := by
    refine hstored.trans ((hw.allEvents_perm.map _).trans (.of_eq ?_))
    rw [← flatten_batches, List.map_flatten]
  obtain ⟨batches', hperm', hordered', hok⟩ := hbatches.regrouped hsep hperm
  rw [hgroup] at hok
  cases hok
  -- the replayed commits are those of the run, in another order
  set written := w.applied.filter fun entry => !entry.write.events.isEmpty with hwritten
  have hsame : (w.batches.map fun batch => batch.map SerializedEvent.reread) =
      written.map fun entry => entry.write.events.map .reread := by
    rw [World.batches, List.filter_map, List.map_map]
    rfl
  rw [hsame] at hperm'
  obtain ⟨entries, hforall, hentries⟩ := List.perm_comp_forall₂ hperm'
    (List.forall₂_map_left_iff.mpr (List.forall₂_same.mpr fun entry _ => rfl) :
      List.Forall₂ (fun batch (entry : Applied ι) => batch = entry.write.events.map .reread)
        _ written)
  have hbatches' : batches' = entries.map fun entry => entry.write.events.map .reread := by
    rw [← List.forall₂_eq_eq_eq, List.forall₂_map_right_iff]
    exact hforall
  subst hbatches'
  have hmem : ∀ entry ∈ entries, entry ∈ w.applied := fun entry hentry =>
    List.mem_of_mem_filter (hentries.mem_iff.mp hentry)
  simp only [replayViews, bind_eq_ok] at hreplay
  obtain ⟨replay, hreplay, hrows⟩ := hreplay
  cases hrows
  rw [List.map_map] at hfill
  have happlied := replayFrom_entries hconsistent hw hx hstored hmem hfill hreplay
  have hlive := flatMap_views_filter fun entry hentry => hconsistent.views_bare hw hentry
  -- two commits with a row of one owner both wrote its stream, which does not come after itself
  have hone : ∀ a ∈ written, ∀ b ∈ written, ∀ item ∈ a.write.views, ∀ other ∈ b.write.views,
      item.op.owner = other.op.owner → StreamsOrdered a.write.events b.write.events →
      StreamsOrdered b.write.events a.write.events → a = b := by
    intro a ha b hb item hitem other hother hsame hab hba
    obtain ⟨e, he, hid⟩ := hconsistent.owned hw (List.mem_of_mem_filter ha) hitem
    obtain ⟨e', he', hid'⟩ := hconsistent.owned hw (List.mem_of_mem_filter hb) hother
    have hstream : e.entityId = e'.entityId := by rw [hid, hid', hsame]
    exact absurd (hab e he e' he' hstream) (hba e' he' e he hstream.symm).not_gt
  refine ViewReplay.rows_eq fun key => ?_
  rw [hw.views, get_applyViews_last, ViewReplay.get_applyAll happlied, hlive,
    onKey_reordered hentries (hw.streams_ordered.filter _)
      ((List.pairwise_map.mp hordered').imp streamsOrdered_reread.mp) hone happlied]
  cases (onKey key (written.flatMap (·.write.views))).getLast? with
  | none => simp [ViewReplay.empty]
  | some item => rfl

end Runs

def counter.tallied : StoreConfig counter := { counter.plain with commitProjectors := [tally] }

def tallying (first second : String) : Fin 1 → Operation counters onlyKind
  | 0 => .session "a" counter.tallied
      [fun _ => ([(), ()], { commitId := first }), fun _ => ([()], { commitId := second })]

theorem typed_tallying (first second : String) (i : Fin 1) : (tallying first second i).Typed := by
  unfold tallying
  split
  trivial

theorem projectors_tallying (first second : String) (i : Fin 1) :
    (tallying first second i).projectors = [tally] := by
  unfold tallying
  split
  rfl

def tallied : World (Fin 1) × (Fin 1 → Program (Option ((entityId : EntityId) ×
    Loaded (counters (onlyKind entityId))))) :=
  World.turns Env.plain (World.start .empty, fun i => (tallying "c1" "c2" i).program Env.plain)
    (List.replicate 7 0)

instance {ι : Type} (entry : Applied ι) (before : List (Applied ι)) :
    Decidable (entry.OwnId before) := by
  unfold Applied.OwnId
  infer_instance

theorem ownIds_of_forall {ι : Type} {applied : List (Applied ι)}
    (h : ∀ k < applied.length, ∀ entry ∈ applied[k]?.toList, entry.OwnId (applied.take k))
    (k : Nat) (entry : Applied ι) (hk : applied[k]? = some entry) :
    entry.OwnId (applied.take k) :=
  h k (List.getElem?_eq_some_iff.mp hk).1 entry (by simp [hk])

/-- The replay of the two commits returns the row of the second one. -/
theorem replay_reproduces_views_of_tally :
    ∃ views filled rows,
      groupCommits (tallied.1.stores.allEvents.map .reread) = .ok views ∧
      fillStates counters onlyKind (tallied.1.stores.allEvents.map .reread) views = .ok filled ∧
      replayViews [tally] filled = .ok rows ∧ rows.length = 1 ∧
      rows = tallied.1.stores.views.toList.map (·.2) :=
  ⟨_, _, _, rfl, rfl, rfl, by decide +kernel,
    replay_reproduces_views Env.plain (fun _ => counter.roundTrips) [tally] (tallying "c1" "c2")
      (typed_tallying _ _) (projectors_tallying _ _) tallied.1 tallied.2
      (World.reaches_turns_when _ (by decide +kernel)) (ownIds_of_forall (by decide +kernel))
      _ (.refl _) _ _ _ rfl rfl rfl⟩

def unnamed (i : Fin 1) (w : World (Fin 1)) : (a : Ask) → Answer a × World (Fin 1)
  | .generate => ("", w)
  | a => w.answer Env.plain i a

theorem acts_unnamed (i : Fin 1) (w : World (Fin 1)) (a : Ask) :
    World.Acts Env.plain i w a (unnamed i w a).1 (unnamed i w a).2 := by
  cases a with
  | generate => exact .generate ""
  | _ => exact World.acts_answer Env.plain i w _

def unnamedTally : World (Fin 1) × (Fin 1 → Program (Option ((entityId : EntityId) ×
    Loaded (counters (onlyKind entityId))))) :=
  Pool.turns unnamed (World.start .empty, fun i => (tallying "" "c2" i).program Env.plain)
    (List.replicate 6 0)

/-- A commit of two events with an empty ID is replayed as two. -/
theorem empty_id_replayed_apart :
    Pool.Reaches (World.Acts Env.plain) (World.Undisturbed Env.plain)
      (World.start .empty, fun i => (tallying "" "c2" i).program Env.plain) unnamedTally ∧
    unnamedTally.1.applied.length = 1 ∧
    unnamedTally.1.stores.views.toList.map (fun entry => entry.2.payload) = ["2".toUTF8] ∧
    ∃ views filled rows,
      groupCommits (unnamedTally.1.stores.allEvents.map .reread) = .ok views ∧
      fillStates counters onlyKind (unnamedTally.1.stores.allEvents.map .reread) views =
        .ok filled ∧
      replayViews [tally] filled = .ok rows ∧ rows.map (·.payload) = ["1".toUTF8] :=
  ⟨Pool.reaches_turns acts_unnamed _ _, by decide +kernel, by decide +kernel, _, _, _, rfl, rfl,
    rfl,
    by decide +kernel⟩

end EventStore
