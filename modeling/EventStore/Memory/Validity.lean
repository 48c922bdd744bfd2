import EventStore.Core.Memory

/-!
What the checks before a write establish: the shape of a valid commit, the
distinct keys of its view operations, and the sorted, distinct write set of a
normalized multi-stream commit.
-/
namespace EventStore

open Result

variable {Op : Type}

theorem checkView_ok {seen : List ((String × String) × (String × Nat))} {view : ProjectedView}
    (h : checkView seen view = .ok ()) :
    invalidReason view.op = none ∧ view.op.key ∉ seen.map Prod.fst := by
  simp only [checkView, seq_eq_ok] at h
  obtain ⟨hreason, -, -, hseen⟩ := h
  constructor
  · unfold checkReason at hreason
    split at hreason
    · cases hreason
    · assumption
  · unfold checkDuplicate at hseen
    split at hseen
    · cases hseen
    · rename_i hlookup
      intro hmem
      obtain ⟨entry, hentry, heq⟩ := List.mem_map.mp hmem
      have := List.lookup_eq_none_iff.mp hlookup entry hentry
      simp [heq] at this

theorem checkViews_ok {views : List ProjectedView} (h : checkViews views = .ok ()) :
    (views.map (·.op.key)).Nodup ∧ ∀ view ∈ views, invalidReason view.op = none := by
  suffices key : ∀ seen, checkViewsFrom seen views = .ok () →
      (views.map (·.op.key)).Nodup ∧ (∀ view ∈ views, invalidReason view.op = none) ∧
        ∀ view ∈ views, view.op.key ∉ seen.map Prod.fst by
    exact ⟨(key [] h).1, (key [] h).2.1⟩
  clear h
  induction views with
  | nil => intro seen _; simp
  | cons view views ih =>
    intro seen h
    simp only [checkViewsFrom, seq_eq_ok] at h
    obtain ⟨hview, hrest⟩ := h
    obtain ⟨hvalid, hseen⟩ := checkView_ok hview
    obtain ⟨hnodup, hall, hfresh⟩ := ih _ hrest
    refine ⟨?_, ?_, ?_⟩
    · rw [List.map_cons, List.nodup_cons]
      refine ⟨?_, hnodup⟩
      intro hmem
      obtain ⟨other, hother, heq⟩ := List.mem_map.mp hmem
      exact hfresh other hother (by simp [heq])
    · intro other hother
      rcases List.mem_cons.mp hother with rfl | hother
      · exact hvalid
      · exact hall other hother
    · intro other hother
      rcases List.mem_cons.mp hother with rfl | hother
      · exact hseen
      · exact fun hmem => hfresh other hother (by simp [hmem])

variable {E : Env}

namespace Commit

/-- Its events are the stream's, of one type, consecutive from 1 on, and its snapshot fits. -/
structure Valid (c : Commit Op) : Prop where
  identity : ∀ event ∈ c.events,
    event.entityId = c.entityId ∧ event.id = EventId.forEvent c.entityId event.sequence
  entityType : ∀ first, c.events.head? = some first →
    ∀ event ∈ c.events, event.entityType = first.entityType
  positive : ∀ first, c.events.head? = some first → 1 ≤ first.sequence
  consecutive : ∀ first, c.events.head? = some first →
    Consecutive.From SerializedEvent.sequence first.sequence c.events
  snapshot : ∀ first, c.events.head? = some first → ∀ snapshot, c.snapshot = some snapshot →
    snapshot.entityType = first.entityType ∧ 1 ≤ snapshot.sequence
  views : (c.views.map (·.op.key)).Nodup ∧ ∀ view ∈ c.views, invalidReason view.op = none
  bare : c.events = [] → c.operations = [] ∧ c.views = []

variable {first : SerializedEvent}

theorem checkEntityTypes_ok {c : Commit Op} (h : c.checkEntityTypes first = .ok ()) :
    ∀ event ∈ c.events, event.entityType = first.entityType := by
  unfold checkEntityTypes at h
  split at h
  · cases h
  · rename_i hfind
    intro event hevent
    simpa using List.find?_eq_none.mp hfind event hevent

theorem checkSnapshot_ok {c : Commit Op} (h : c.checkSnapshot first = .ok ()) :
    ∀ snapshot, c.snapshot = some snapshot →
      snapshot.entityType = first.entityType ∧ 1 ≤ snapshot.sequence := by
  intro snapshot hs
  simp only [checkSnapshot, hs] at h
  split at h
  · cases h
  · split at h
    · cases h
    · simp_all

theorem checkIdentities_ok {c : Commit Op} {events : List SerializedEvent}
    (h : c.checkIdentities events = .ok ()) :
    ∀ event ∈ events,
      event.entityId = c.entityId ∧ event.id = EventId.forEvent c.entityId event.sequence := by
  induction events with
  | nil => simp
  | cons event events ih =>
    simp only [checkIdentities] at h
    split at h
    · cases h
    · split at h
      · cases h
      · rename_i hentity hid
        intro other hother
        rcases List.mem_cons.mp hother with rfl | hother
        · have hentity : other.entityId = c.entityId := not_not.mp hentity
          exact ⟨hentity, by rw [← hentity]; exact not_not.mp hid⟩
        · exact ih h other hother

theorem checkContiguous_ok {events : List SerializedEvent}
    (h : checkContiguous (first :: events) = .ok ()) :
    Consecutive.From SerializedEvent.sequence first.sequence (first :: events) := by
  induction events generalizing first with
  | nil => exact ⟨rfl, trivial⟩
  | cons second events ih =>
    simp only [checkContiguous] at h
    split at h
    · cases h
    · rename_i hnext
      have hsecond := (EventSequence.checkedNext_eq_some.mp (not_not.mp hnext)).2
      exact ⟨rfl, hsecond ▸ ih h⟩

theorem checkFirst_ok (h : checkFirst first = .ok ()) : 1 ≤ first.sequence := by
  simpa [checkFirst] using h

theorem checkEvents_ok {c : Commit Op} (h : c.checkEvents = .ok ()) : c.Valid := by
  unfold checkEvents at h
  split at h
  · rename_i hnil
    split at h
    · rename_i hbare
      obtain ⟨hops, hviews⟩ := Bool.and_eq_true_iff.mp hbare
      rw [List.isEmpty_iff] at hops hviews
      constructor <;> simp [hnil, hops, hviews]
    · cases h
  · rename_i first rest hcons
    simp only [seq_eq_ok] at h
    obtain ⟨htypes, hsnapshot, hidentity, hfirst, hcontiguous, hviews⟩ := h
    have hhead : c.events.head? = some first := by rw [hcons]; rfl
    rw [hcons] at hcontiguous
    refine ⟨checkIdentities_ok hidentity, ?_, ?_, ?_, ?_, checkViews_ok hviews, ?_⟩
    · rw [hhead]
      rintro _ ⟨⟩
      exact checkEntityTypes_ok htypes
    · rw [hhead]
      rintro _ ⟨⟩
      exact checkFirst_ok hfirst
    · rw [hhead]
      rintro _ ⟨⟩
      rw [hcons]
      exact checkContiguous_ok hcontiguous
    · rw [hhead]
      rintro _ ⟨⟩
      exact checkSnapshot_ok hsnapshot
    · simp [hcons]

theorem validate_ok {c : Commit Op} (h : c.validate E = .ok ()) : c.Valid :=
  checkEvents_ok (seq_eq_ok.mp h).2

end Commit

namespace TransactionCommit

/-- Distinct streams with events, sorted, without operations, and sorted fences of others. -/
structure Normal (t : TransactionCommit Op) : Prop where
  valid : ∀ c ∈ t.streams, c.Valid
  events : ∀ c ∈ t.streams, c.events ≠ []
  unreserved : ∀ c ∈ t.streams, isReserved c.entityId = false
  moved : ∀ c ∈ t.streams, c.operations = [] ∧ c.views = []
  sorted : t.streams.Pairwise fun a b => a.entityId < b.entityId
  fenceHeads : ∀ fence ∈ t.fences, 0 ≤ fence.head ∧ fence.head < maxSequence
  fencesSorted : t.fences.Pairwise fun a b => a.entityId < b.entityId
  unwritten : ∀ fence ∈ t.fences, ∀ c ∈ t.streams, c.entityId ≠ fence.entityId
  views : (t.views.map (·.op.key)).Nodup ∧ ∀ view ∈ t.views, invalidReason view.op = none

variable {seen : List EntityId}

theorem checkStreams_eq_ok {streams : List (Commit Op)} :
    checkStreams E seen streams = .ok () ↔
      (∀ c ∈ streams, c.validate E = .ok () ∧ isReserved c.entityId = false ∧
        c.entityId ∉ seen) ∧ (streams.map (·.entityId)).Nodup := by
  induction streams generalizing seen with
  | nil => simp [checkStreams]
  | cons c streams ih =>
    rw [List.forall_mem_cons]
    simp only [checkStreams, seq_eq_ok, refuse_eq_ok, checkNotReserved_ok, ih, List.map_cons,
      List.nodup_cons, List.mem_map, List.mem_cons, not_or, not_exists, not_and]
    constructor
    · rintro ⟨hvalid, hreserved, hseen, hall, hnodup⟩
      exact ⟨⟨⟨hvalid, hreserved, hseen⟩, fun other hother =>
        ⟨(hall other hother).1, (hall other hother).2.1, (hall other hother).2.2.2⟩⟩,
        fun other hother => (hall other hother).2.2.1, hnodup⟩
    · rintro ⟨⟨⟨hvalid, hreserved, hseen⟩, hall⟩, hnew, hnodup⟩
      exact ⟨hvalid, hreserved, hseen, fun other hother =>
        ⟨(hall other hother).1, (hall other hother).2.1, hnew other hother,
          (hall other hother).2.2⟩, hnodup⟩

theorem checkStreams_ok {streams : List (Commit Op)} (h : checkStreams E seen streams = .ok ()) :
    (∀ c ∈ streams, c.Valid ∧ isReserved c.entityId = false ∧ c.entityId ∉ seen) ∧
      (streams.map (·.entityId)).Nodup := by
  obtain ⟨hall, hnodup⟩ := checkStreams_eq_ok.mp h
  exact ⟨fun c hc => ⟨Commit.validate_ok (hall c hc).1, (hall c hc).2⟩, hnodup⟩

theorem checkedNext_isNone {head : Int} :
    (EventSequence.checkedNext head).isNone = true ↔ maxSequence ≤ head := by
  unfold EventSequence.checkedNext
  split <;> simp_all

theorem checkFences_eq_ok {fences : List ReadFence} :
    checkFences seen fences = .ok () ↔
      (∀ fence ∈ fences, isReserved fence.entityId = false ∧ 0 ≤ fence.head ∧
        fence.head < maxSequence ∧ fence.entityId ∉ seen) ∧ (fences.map (·.entityId)).Nodup := by
  induction fences generalizing seen with
  | nil => simp [checkFences]
  | cons fence fences ih =>
    rw [List.forall_mem_cons]
    simp only [checkFences, seq_eq_ok, refuse_eq_ok, checkNotReserved_ok, ih,
      checkedNext_isNone, List.map_cons, List.nodup_cons, List.mem_map, List.mem_cons, not_or,
      not_exists, not_and, not_lt, not_le]
    constructor
    · rintro ⟨hreserved, ⟨hneg, hmax, hseen⟩, hall, hnodup⟩
      exact ⟨⟨⟨hreserved, hneg, hmax, hseen⟩, fun other hother =>
        ⟨(hall other hother).1, (hall other hother).2.1, (hall other hother).2.2.1,
          (hall other hother).2.2.2.2⟩⟩, fun other hother => (hall other hother).2.2.2.1, hnodup⟩
    · rintro ⟨⟨⟨hreserved, hneg, hmax, hseen⟩, hall⟩, hnew, hnodup⟩
      exact ⟨hreserved, ⟨hneg, hmax, hseen⟩, fun other hother =>
        ⟨(hall other hother).1, (hall other hother).2.1, (hall other hother).2.2.1,
          hnew other hother, (hall other hother).2.2.2⟩, hnodup⟩

theorem checkFences_ok {fences : List ReadFence} (h : checkFences seen fences = .ok ()) :
    (∀ fence ∈ fences, 0 ≤ fence.head ∧ fence.head < maxSequence ∧ fence.entityId ∉ seen) ∧
      (fences.map (·.entityId)).Nodup := by
  obtain ⟨hall, hnodup⟩ := checkFences_eq_ok.mp h
  exact ⟨fun fence hfence => (hall fence hfence).2, hnodup⟩

theorem insertionSort_strict {α : Type} (key : α → String) (l : List α)
    (h : (l.map key).Nodup) :
    (l.insertionSort fun a b => key a ≤ key b).Pairwise fun a b => key a < key b := by
  have hperm := List.perm_insertionSort (fun a b => key a ≤ key b) l
  have hnodup : (l.insertionSort fun a b => key a ≤ key b).Pairwise
      fun a b => key a ≠ key b :=
    List.pairwise_map.mp ((hperm.map key).nodup_iff.mpr h)
  exact ((Ranking.pairwise_insertionSort key l).and hnodup).imp fun hab =>
    lt_of_le_of_ne hab.1 hab.2

theorem mem_normalized_streams {t : TransactionCommit Op} {c : Commit Op}
    (h : c ∈ t.normalized.streams) :
    ∃ stream ∈ t.written, c = { stream with operations := [], views := [] } := by
  have := (List.perm_insertionSort _ _).mem_iff.mp h
  obtain ⟨stream, hstream, rfl⟩ := List.mem_map.mp this
  exact ⟨stream, hstream, rfl⟩

theorem mem_written {t : TransactionCommit Op} {c : Commit Op} :
    c ∈ t.written ↔ c ∈ t.streams ∧ c.events ≠ [] := by
  simp [written, List.mem_filter]

theorem checkSnapshots_eq_ok {streams : List (Commit Op)} :
    checkSnapshots streams = .ok () ↔ ∀ c ∈ streams, c.events = [] → c.snapshot = none := by
  induction streams with
  | nil => simp [checkSnapshots]
  | cons c streams ih =>
    rw [checkSnapshots, List.forall_mem_cons, ← ih]
    by_cases hevents : c.events = []
    · cases hsnapshot : c.snapshot <;> simp [hevents]
    · simp [hevents]

theorem streams_normalized {t : TransactionCommit Op} (hwritten : ∀ c ∈ t.streams, c.events ≠ [])
    (hsorted : t.streams.Pairwise fun a b => a.entityId ≤ b.entityId) :
    t.written = t.streams ∧ t.normalized.streams =
      t.streams.map fun stream => { stream with operations := [], views := [] } := by
  have hall : t.written = t.streams := by
    rw [written, List.filter_eq_self]
    intro c hc
    simp [hwritten c hc]
  refine ⟨hall, ?_⟩
  rw [normalized, hall]
  apply List.Pairwise.insertionSort_eq
  rw [List.pairwise_map]
  exact hsorted

theorem normalize_ok {t n : TransactionCommit Op} (h : t.normalize E = .ok n) :
    n = t.normalized ∧ n.Normal := by
  simp only [normalize, seq_eq_ok] at h
  obtain ⟨-, hstreams, hfences, -, -, hviews, hn⟩ := h
  obtain rfl : t.normalized = n := by cases hn; rfl
  obtain ⟨hall, hnodup⟩ := checkStreams_ok hstreams
  obtain ⟨hfence, hfenceNodup⟩ := checkFences_ok hfences
  have hmem : ∀ c ∈ t.normalized.streams, ∃ stream, stream ∈ t.streams ∧ stream.events ≠ [] ∧
      c = { stream with operations := [], views := [] } := by
    intro c hc
    obtain ⟨stream, hstream, rfl⟩ := mem_normalized_streams hc
    obtain ⟨hin, hevents⟩ := mem_written.mp hstream
    exact ⟨stream, hin, hevents, rfl⟩
  refine ⟨rfl, ?_, ?_, ?_, ?_, ?_, ?_, ?_, ?_, checkViews_ok hviews⟩
  · intro c hc
    obtain ⟨stream, hin, hevents, rfl⟩ := hmem c hc
    obtain ⟨hv, -, -⟩ := hall stream hin
    exact ⟨hv.identity, hv.entityType, hv.positive, hv.consecutive, hv.snapshot, by simp,
      fun hnil => ⟨rfl, rfl⟩⟩
  · intro c hc
    obtain ⟨stream, hin, hevents, rfl⟩ := hmem c hc
    exact hevents
  · intro c hc
    obtain ⟨stream, hin, hevents, rfl⟩ := hmem c hc
    exact (hall stream hin).2.1
  · intro c hc
    obtain ⟨stream, hin, hevents, rfl⟩ := hmem c hc
    exact ⟨rfl, rfl⟩
  · apply insertionSort_strict Commit.entityId
    rw [List.map_map]
    exact hnodup.sublist (List.filter_sublist.map _)
  · intro fence hf
    have := (List.perm_insertionSort _ _).mem_iff.mp (List.mem_of_mem_filter hf)
    exact ⟨(hfence fence this).1, (hfence fence this).2.1⟩
  · exact (insertionSort_strict ReadFence.entityId t.fences hfenceNodup).filter _
  · intro fence hf c hc heq
    obtain ⟨stream, hstream, rfl⟩ := mem_normalized_streams hc
    have hkeep := (List.mem_filter.mp hf).2
    simp only [Bool.not_eq_true', List.any_eq_false, beq_iff_eq] at hkeep
    exact hkeep stream hstream heq

end TransactionCommit

end EventStore
