import EventStore.Memory.Ranked

/-!
What a commit call lists is what it stores, but for an outcome that a stream of a transaction lists
and a snapshot without events. The listed events, heads, snapshots, view results and outcome rows
are those of the request as the caller wrote it, before normalization reorders it; a failed call
stores nothing.
-/
namespace EventStore

open Result Ranking

/-- The stream's snapshot is the one a commit lists. -/
def Stream.Shows (stream : Stream) (c : Commit Empty) (new : NewSnapshot) : Prop :=
  ∃ stored, stream.snapshot = some stored ∧ stored.entityType = new.entityType ∧
    stored.entityId = c.entityId ∧ stored.sequence = new.sequence ∧ stored.payload = new.payload

namespace Request

def streams : Request → List (Commit Empty)
  | .commit c => [c]
  | .transaction t => t.streams

def views : Request → List ProjectedView
  | .commit c => c.views
  | .transaction t => t.streams.flatMap (·.views) ++ t.views

def storedOutcome : Request → Option Outcome
  | .commit c => c.storedOutcome
  | .transaction t => t.normalized.storedOutcome

/-- The row of an outcome that a commit of the events lists: without an empty response. -/
def row (outcome : Outcome) (eventIds : List EventId) : Outcome :=
  { outcome with eventIds, response := outcome.response.filter fun response => !response.isEmpty }

/-- The events of all streams, by entity ID. -/
def eventIds : Request → List EventId
  | .commit c => c.events.map (·.id)
  | .transaction t => ((t.streams.filter fun c => !c.events.isEmpty).insertionSort fun a b =>
      a.entityId ≤ b.entityId).flatMap fun c => c.events.map (·.id)

/-- The outcome row of the request itself. -/
def ownRows (q : Request) : List Outcome :=
  q.outcome.toList.map fun outcome => row outcome q.eventIds

/-- The outcome rows that the streams of a transaction list. -/
def streamRows : Request → List Outcome
  | .commit _ => []
  | .transaction t => t.streams.flatMap fun c =>
      c.outcome.toList.map fun outcome => row outcome (c.events.map (·.id))

/-- The stores after a call hold what it lists, apart from the outcomes of a transaction's streams
and the snapshots without events, and else what they held. -/
structure LandsOwn (q : Request) (s s' : Stores) : Prop where
  events : ∀ c ∈ q.streams, ∀ event ∈ c.events,
    (s'.held c.entityId).events[event.sequence]? = some event
  heads : ∀ c ∈ q.streams, ∀ last, c.events.getLast? = some last →
    (s'.held c.entityId).head = last.sequence
  snapshots : ∀ c ∈ q.streams, ∀ last, c.events.getLast? = some last →
    ∀ new, c.snapshot = some new → (s'.held c.entityId).snapshot =
      some ⟨new.entityType, c.entityId, new.sequence, last.sequence, new.payload⟩
  views : ∀ view ∈ q.views, s'.views[view.op.key]? = view.op.result
  outcomes : ∀ row ∈ q.ownRows, s'.outcomes[row.commandId]? = some row
  otherEvents : ∀ entityId (k : Int),
    (∀ c ∈ q.streams, c.entityId = entityId → ∀ event ∈ c.events, event.sequence ≠ k) →
    (s'.held entityId).events[k]? = (s.held entityId).events[k]?
  otherHeads : ∀ entityId, (∀ c ∈ q.streams, c.entityId = entityId → c.events = []) →
    (s'.held entityId).head = (s.held entityId).head
  otherSnapshots : ∀ entityId,
    (∀ c ∈ q.streams, c.entityId = entityId → c.events ≠ [] → c.snapshot = none) →
    (s'.held entityId).snapshot = (s.held entityId).snapshot
  otherViews : ∀ key, (∀ view ∈ q.views, view.op.key ≠ key) → s'.views[key]? = s.views[key]?
  otherOutcomes : ∀ commandId, (∀ row ∈ q.ownRows, row.commandId ≠ commandId) →
    s'.outcomes[commandId]? = s.outcomes[commandId]?
  rebuild : s'.rebuild = s.rebuild
  manifest : s'.manifest = s.manifest ∨
    s.holdsData = false ∧ s'.manifest = some (declaredManifest s.manifest)

/-- The stores after a call hold exactly what it lists, and else what they held. -/
structure Lands (q : Request) (s s' : Stores) : Prop extends LandsOwn q s s' where
  streamOutcomes : ∀ row ∈ q.streamRows, s'.outcomes[row.commandId]? = some row
  bareSnapshots : ∀ c ∈ q.streams, c.events = [] → ∀ new, c.snapshot = some new →
    (s'.held c.entityId).Shows c new

/-- What a transaction's streams list as outcomes is its own row, or recorded already; so is the
snapshot of a commit without events. -/
structure Recorded (q : Request) (s : Stores) : Prop where
  outcomes : ∀ row ∈ q.streamRows, row ∈ q.ownRows ∨ s.outcomes[row.commandId]? = some row ∧
    ∀ own ∈ q.ownRows, own.commandId ≠ row.commandId
  snapshots : ∀ c ∈ q.streams, c.events = [] → ∀ new, c.snapshot = some new →
    (s.held c.entityId).Shows c new

structure Plans (q : Request) (w : Write) : Prop where
  written : ∀ c ∈ q.streams, c.events ≠ [] → ∃ c' ∈ w.streams,
    c'.entityId = c.entityId ∧ c'.events = c.events ∧ c'.snapshot = c.snapshot
  listed : ∀ c' ∈ w.streams, ∃ c ∈ q.streams,
    c'.entityId = c.entityId ∧ c'.events = c.events ∧ c'.snapshot = c.snapshot
  views : ∀ view, view ∈ q.views ↔ view ∈ w.views
  outcome : q.storedOutcome = w.outcome

def nothing : Write := ⟨[], [], [], none, fun _ => .ok ()⟩

variable {E : Env}

/-- The row that is written is the request's own. -/
theorem storedOutcome_toList (q : Request) : q.storedOutcome.toList = q.ownRows := by
  have hrows : ∀ (o : Option Outcome) (eventIds : List EventId),
      (o.map fun outcome => outcome.stored eventIds).toList =
        o.toList.map fun outcome => row outcome eventIds := by
    intro o eventIds
    cases o <;> rfl
  cases q with
  | commit c => exact hrows c.outcome _
  | transaction t =>
    have hsorted := List.map_insertionSort (fun a b : Commit Empty => a.entityId ≤ b.entityId)
      (fun a b : Commit Empty => a.entityId ≤ b.entityId)
      (fun stream => { stream with operations := [], views := [] }) t.written fun _ _ _ _ => Iff.rfl
    have hids : t.normalized.streams.flatMap (fun c => c.events.map (·.id)) =
        (Request.transaction t).eventIds := by
      rw [TransactionCommit.normalized, ← hsorted, List.flatMap_map]
      rfl
    rw [ownRows, ← hids]
    exact hrows t.outcome _

theorem mem_views_transaction {t : TransactionCommit Empty} (h : t.normalize E = .ok t.normalized)
    (view : ProjectedView) : view ∈ (Request.transaction t).views ↔ view ∈ t.normalized.views := by
  simp only [TransactionCommit.normalize, seq_eq_ok] at h
  have hvalid := (TransactionCommit.checkStreams_ok h.2.1).1
  simp only [views, TransactionCommit.normalized, List.mem_append, List.mem_flatMap,
    TransactionCommit.mem_written]
  refine or_congr_left ⟨?_, ?_⟩
  · rintro ⟨c, hc, hview⟩
    refine ⟨c, ⟨hc, fun hnil => ?_⟩, hview⟩
    simp [((hvalid c hc).1.bare hnil).2] at hview
  · rintro ⟨c, hc, hview⟩
    exact ⟨c, hc.1, hview⟩

theorem plans_transaction {t : TransactionCommit Empty} (h : t.normalize E = .ok t.normalized) :
    Plans (.transaction t) (.ofTransaction t.normalized) := by
  refine ⟨?_, ?_, mem_views_transaction h, rfl⟩
  · intro c hc hne
    refine ⟨{ c with operations := [], views := [] }, ?_, rfl, rfl, rfl⟩
    exact (List.perm_insertionSort _ _).mem_iff.mpr
      (List.mem_map.mpr ⟨c, TransactionCommit.mem_written.mpr ⟨hc, hne⟩, rfl⟩)
  · intro c' hc'
    obtain ⟨c, hc, rfl⟩ := TransactionCommit.mem_normalized_streams hc'
    exact ⟨c, (TransactionCommit.mem_written.mp hc).1, rfl, rfl, rfl⟩

variable {q : Request}

theorem plans_some {w : Write} (h : q.plan E = .ok (some w)) : Plans q w := by
  rcases plan_eq_some h with ⟨c, ⟨rfl, -⟩, rfl⟩ | ⟨t, ⟨rfl, ht⟩, rfl⟩
  · exact ⟨fun c hc _ => ⟨c, hc, rfl, rfl, rfl⟩, fun c hc => ⟨c, hc, rfl, rfl, rfl⟩,
      fun _ => Iff.rfl, rfl⟩
  · exact plans_transaction ht

theorem plans_none (h : q.plan E = .ok none) : Plans q nothing := by
  cases q with
  | commit c =>
    simp only [plan, seq_eq_ok] at h
    obtain ⟨hcheck, h⟩ := h
    split at h
    · rename_i hempty
      simp only [Bool.and_eq_true, List.isEmpty_iff, Option.isNone_iff_eq_none] at hempty
      have hbare := (Commit.validate_ok (seq_eq_ok.mp hcheck).1).bare hempty.1
      refine ⟨?_, by simp [nothing], ?_, ?_⟩
      · intro c' hc' hne
        obtain rfl : c' = c := by simpa [streams] using hc'
        exact absurd hempty.1 hne
      · simp [views, nothing, hbare.2]
      · simp [storedOutcome, Commit.storedOutcome, nothing, hempty.2]
    · obtain ⟨-, h⟩ := seq_eq_ok.mp h
      cases h
  | transaction t =>
    simp only [plan, bind_eq_ok] at h
    obtain ⟨n, hn, h⟩ := h
    obtain ⟨rfl, -⟩ := TransactionCommit.normalize_ok hn
    split at h
    · rename_i hempty
      simp only [TransactionCommit.isEmpty, Bool.and_eq_true, List.isEmpty_iff,
        Option.isNone_iff_eq_none] at hempty
      obtain ⟨⟨⟨⟨hstreams, -⟩, -⟩, hviews⟩, houtcome⟩ := hempty
      have hp := plans_transaction hn
      refine ⟨?_, by simp [nothing], ?_, ?_⟩
      · intro c hc hne
        obtain ⟨c', hc', -⟩ := hp.written c hc hne
        simp [Write.ofTransaction, hstreams] at hc'
      · intro view
        rw [hp.views]
        simp [Write.ofTransaction, hviews, nothing]
      · simp [storedOutcome, TransactionCommit.storedOutcome, nothing, houtcome]
    · obtain ⟨-, h⟩ := seq_eq_ok.mp h
      cases h

section Landing

variable {w : Write} (hp : Plans q w) (hw : w.Sound) {s s' : Stores}
  (hdata : SameData (w.apply s) s')

include hp hw hdata

/-- A stream is as it was, or written by a commit that the request lists. -/
theorem Plans.held_cases (entityId : EntityId) : s'.held entityId = s.held entityId ∨
    ∃ c ∈ q.streams, c.entityId = entityId ∧ c.events ≠ [] ∧ ∃ c' : Commit Empty,
      s'.held entityId = applyStream (s.held entityId) c' ∧ c'.Valid ∧
      c'.events = c.events ∧ c'.snapshot = c.snapshot := by
  rw [hdata.held, Write.held_apply hw]
  cases hc' : writerOf w.streams entityId with
  | none => exact .inl rfl
  | some c' =>
    obtain ⟨hmem, hne, hid⟩ := writerOf_eq_some hc'
    obtain ⟨c, hc, hcid, hevents, hsnapshot⟩ := hp.listed c' hmem
    exact .inr ⟨c, hc, hcid.symm.trans hid, hevents ▸ hne, c', rfl, hw.valid c' hmem, hevents,
      hsnapshot⟩

variable (hpass : ∀ c ∈ w.streams, streamFailure (s.held c.entityId) c = none)

include hpass

theorem Plans.held_written {c : Commit Empty} (hc : c ∈ q.streams) (hne : c.events ≠ []) :
    ∃ c' : Commit Empty, s'.held c.entityId = applyStream (s.held c.entityId) c' ∧ c'.Valid ∧
      streamFailure (s.held c.entityId) c' = none ∧ c'.entityId = c.entityId ∧
      c'.events = c.events ∧ c'.snapshot = c.snapshot := by
  obtain ⟨c', hc', hid, hevents, hsnapshot⟩ := hp.written c hc hne
  have hwriterOf := writerOf_of_mem hw.sorted hc' (hevents ▸ hne)
  rw [hid] at hwriterOf
  refine ⟨c', ?_, hw.valid c' hc', hid ▸ hpass c' hc', hid, hevents, hsnapshot⟩
  rw [hdata.held, Write.held_apply hw, hwriterOf]

theorem Plans.lands (hrebuild : s'.rebuild = s.rebuild)
    (hmanifest : s'.manifest = s.manifest ∨
      s.holdsData = false ∧ s'.manifest = some (declaredManifest s.manifest)) :
    LandsOwn q s s' := by
  refine ⟨?_, ?_, ?_, ?_, ?_, ?_, ?_, ?_, ?_, ?_, hrebuild, hmanifest⟩
  · intro c hc event hevent
    obtain ⟨c', hh, hv, -, -, hevents, -⟩ :=
      hp.held_written hw hdata hpass hc (List.ne_nil_of_mem hevent)
    rw [hh]
    exact get_applyStream_mem hv (hevents ▸ hevent)
  · intro c hc last hlast
    obtain ⟨c', hh, hv, hpass, -, hevents, -⟩ :=
      hp.held_written hw hdata hpass hc (by rintro hnil; simp [hnil] at hlast)
    rw [hh]
    exact head_applyStream hv hpass (hevents ▸ hlast)
  · intro c hc last hlast new hnew
    obtain ⟨c', hh, -, -, hid, hevents, hsnapshot⟩ :=
      hp.held_written hw hdata hpass hc (by rintro hnil; simp [hnil] at hlast)
    rw [hh]
    simp [applyStream, hevents, hlast, hsnapshot, hnew, hid]
  · intro view hview
    have hmem := (hp.views view).mp hview
    have hfind : w.views.find? (fun other => other.op.key == view.op.key) = some view :=
      find?_key_of_mem hw.views.1 hmem
    rw [hdata.views, Write.views_apply hw, hfind]
  · intro row hrow
    rw [← storedOutcome_toList, Option.mem_toList] at hrow
    rw [hdata.outcomes, Write.outcomes_apply, ← hp.outcome, hrow]
    simp
  · intro entityId k hk
    obtain hh | ⟨c, hc, hid, -, c', hh, hv, hevents, -⟩ := hp.held_cases hw hdata entityId
    · rw [hh]
    · rw [hh]
      exact get_applyStream_other hv fun event hevent => hk c hc hid event (hevents ▸ hevent)
  · intro entityId hnone
    obtain hh | ⟨c, hc, hid, hne, -⟩ := hp.held_cases hw hdata entityId
    · rw [hh]
    · exact absurd (hnone c hc hid) hne
  · intro entityId hnone
    obtain hh | ⟨c, hc, hid, hne, c', hh, -, -, hsnapshot⟩ := hp.held_cases hw hdata entityId
    · rw [hh]
    · rw [hh]
      simp only [applyStream, hsnapshot, hnone c hc hid hne]
      split <;> rfl
  · intro key hkey
    have hfind : w.views.find? (fun other => other.op.key == key) = none := by
      rw [List.find?_eq_none]
      intro view hview heq
      exact hkey view ((hp.views view).mpr hview) (beq_iff_eq.mp heq)
    rw [hdata.views, Write.views_apply hw, hfind]
  · intro commandId hother
    rw [hdata.outcomes, Write.outcomes_apply, ← hp.outcome]
    cases hq : q.storedOutcome with
    | none => rfl
    | some outcome =>
      have hne := hother outcome (by rw [← storedOutcome_toList, Option.mem_toList, hq])
      simp [Ne.symm hne]

end Landing

/-- A snapshot without events is refused in a transaction, and ignored in a commit. -/
theorem LandsOwn.bare {planned : Option Write} {s s' : Stores} (h : LandsOwn q s s')
    (hplan : q.plan E = .ok planned) {c : Commit Empty} (hc : c ∈ q.streams) (hnil : c.events = [])
    {new : NewSnapshot} (hnew : c.snapshot = some new) :
    (s'.held c.entityId).snapshot = (s.held c.entityId).snapshot := by
  cases q with
  | commit c' =>
    obtain rfl := List.mem_singleton.mp hc
    refine h.otherSnapshots c.entityId fun other hother _ hne => ?_
    obtain rfl := List.mem_singleton.mp hother
    exact absurd hnil hne
  | transaction t =>
    simp only [plan, bind_eq_ok] at hplan
    obtain ⟨n, hn, -⟩ := hplan
    simp only [TransactionCommit.normalize, seq_eq_ok] at hn
    rw [TransactionCommit.checkSnapshots_eq_ok.mp hn.2.2.2.1 c hc hnil] at hnew
    cases hnew

theorem LandsOwn.lands_iff {planned : Option Write} {s s' : Stores} (h : LandsOwn q s s')
    (hplan : q.plan E = .ok planned) : Lands q s s' ↔ Recorded q s := by
  have hshows : ∀ c ∈ q.streams, c.events = [] → ∀ new, c.snapshot = some new →
      ((s'.held c.entityId).Shows c new ↔ (s.held c.entityId).Shows c new) := by
    intro c hc hnil new hnew
    rw [Stream.Shows, Stream.Shows, h.bare hplan hc hnil hnew]
  have hrow : ∀ row, s'.outcomes[row.commandId]? = some row ↔ row ∈ q.ownRows ∨
      s.outcomes[row.commandId]? = some row ∧ ∀ own ∈ q.ownRows, own.commandId ≠ row.commandId := by
    intro row
    by_cases hown : ∀ own ∈ q.ownRows, own.commandId ≠ row.commandId
    · rw [h.otherOutcomes row.commandId hown]
      exact ⟨fun hs => .inr ⟨hs, hown⟩, fun hs =>
        (hs.resolve_left fun hmem => hown row hmem rfl).1⟩
    · refine ⟨fun hs => .inl ?_, fun hs => h.outcomes row (hs.resolve_right fun hs => hown hs.2)⟩
      simp only [not_forall, not_not] at hown
      obtain ⟨own, hmem, hid⟩ := hown
      have hrecorded := h.outcomes own hmem
      rw [hid, hs] at hrecorded
      rwa [Option.some.inj hrecorded]
  constructor
  · exact fun hlands => ⟨fun row hmem => (hrow row).mp (hlands.streamOutcomes row hmem),
      fun c hc hnil new hnew => (hshows c hc hnil new hnew).mp
        (hlands.bareSnapshots c hc hnil new hnew)⟩
  · exact fun hrecorded => ⟨h, fun row hmem => (hrow row).mpr (hrecorded.outcomes row hmem),
      fun c hc hnil new hnew => (hshows c hc hnil new hnew).mpr
        (hrecorded.snapshots c hc hnil new hnew)⟩

end Request

theorem manifest_checkManifest (E : Env) (r : MemRepository) :
    (r.checkManifest E).2.stores.manifest = r.stores.manifest ∨
      r.stores.holdsData = false ∧
        (r.checkManifest E).2.stores.manifest = some (declaredManifest r.stores.manifest) := by
  unfold MemRepository.checkManifest
  split
  · exact .inl rfl
  · split
    · exact .inl rfl
    · split
      · exact .inl rfl
      · rename_i hdata
        exact .inr ⟨by simpa using hdata, rfl⟩
    · exact .inl rfl

/-- An accepted call lands what it lists on its own; the marker check may declare the store. -/
theorem Request.landsOwn {E : Env} {r : MemRepository} {q : Request} {planned : Option Write}
    (hplan : q.plan E = .ok planned) (hok : (q.run E r).1 = .ok ()) :
    q.LandsOwn r.stores (q.run E r).2.stores := by
  rw [Request.run_eq, hplan] at hok ⊢
  cases planned with
  | none =>
    refine (Request.plans_none hplan).lands ?_ (.refl _) ?_ rfl (.inl rfl)
    · exact ⟨by simp [Request.nothing], by simp [Request.nothing],
        by simp [Request.nothing], by simp [Request.nothing]⟩
    · simp [Request.nothing]
  | some w =>
    simp only at hok ⊢
    obtain ⟨haccepted, hstores⟩ := MemRepository.perform_eq_ok (Prod.ext hok rfl : _ = (_, _))
    refine (Request.plans_some hplan).lands (Request.plan_sound hplan) ?_
      haccepted.streams ?_ ?_ <;> rw [hstores]
    · exact ⟨rfl, rfl, rfl⟩
    · rfl
    · exact manifest_checkManifest E r

theorem Request.plan_of_ok {E : Env} {r : MemRepository} {q : Request}
    (hok : (q.run E r).1 = .ok ()) : ∃ planned, q.plan E = .ok planned := by
  cases hplan : q.plan E with
  | error error =>
    rw [Request.run_eq, hplan] at hok
    cases hok
  | ok planned => exact ⟨planned, rfl⟩

/-- A commit call is atomic: an error changes no stream, view or outcome row, and it is the first
failing check of the highest rank; an accepted call stores exactly what it lists, as long as what
its streams list without effect is stored already. -/
theorem commit_atomic_and_ranked (E : Env) (r : MemRepository) (q : Request) :
    ((∀ e, (q.run E r).1 = .error e → SameData r.stores (q.run E r).2.stores) ∧
      ((q.run E r).1 = .ok () → q.Lands r.stores (q.run E r).2.stores) ∧
      (∀ e, q.plan E = .error e → (q.run E r).1 = .error e) ∧
      ∀ w, q.plan E = .ok (some w) → ∀ e,
        (q.run E r).1 = .error e ↔ IsFirstMin commitRank (w.failingChecks E r) e) ↔
    ((q.run E r).1 = .ok () → q.Recorded r.stores) := by
  have hlands : (q.run E r).1 = .ok () →
      (q.Lands r.stores (q.run E r).2.stores ↔ q.Recorded r.stores) := by
    intro hok
    obtain ⟨planned, hplan⟩ := Request.plan_of_ok hok
    exact (Request.landsOwn hplan hok).lands_iff hplan
  refine ⟨fun h hok => (hlands hok).mp (h.2.1 hok), fun h =>
    ⟨?_, fun hok => (hlands hok).mpr (h hok), ?_, ?_⟩⟩ <;> rw [Request.run_eq]
  · intro e he
    cases hplan : q.plan E with
    | error error => exact .refl _
    | ok planned =>
      rw [hplan] at he
      cases planned with
      | none => exact .refl _
      | some w =>
        simp only at he ⊢
        have hr := MemRepository.perform_eq_error (Prod.ext he rfl : _ = (_, _))
        simp only [hr]
        exact sameData_checkManifest E r
  · intro e hplan
    rw [hplan]
  · intro w hplan e
    rw [← report_eq_error, Write.report_failingChecks hplan, hplan]

def outcomeInStream : TransactionCommit Empty :=
  { streams := [{ entityId := "a", events := [⟨"a:1", 1, "T", 1, "a", "t", .empty, {}⟩]
                  outcome := some (.accepted "k" "d") }] }

/-- The commit is accepted and its event is stored, but not the outcome its stream lists. -/
theorem outcomeInStream_unrecorded :
    let r := (Request.transaction outcomeInStream).run Env.plain MemRepository.new
    r.1 = .ok () ∧ (r.2.stores.held "a").head = 1 ∧
      (Request.transaction outcomeInStream).streamRows.map (·.commandId) = ["k"] ∧
      r.2.stores.outcomes["k"]? = none :=
  ⟨rfl, rfl, rfl, rfl⟩

end EventStore
