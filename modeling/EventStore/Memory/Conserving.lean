import EventStore.Memory.Validity

/-!
What normalizing a multi-stream commit keeps. The checks make sure that a stream dropped for
having no events has no snapshot, no operation and no view operation; an outcome it may have, and
that outcome is gone with it.
-/
namespace EventStore

open Result

variable {Op : Type}

section Texts

theorem checkTexts_eq_ok {texts : List (String × String)} :
    checkTexts texts = .ok () ↔ ∀ text ∈ texts, hasNul text.2 = false := by
  induction texts with
  | nil => simp [checkTexts]
  | cons text texts ih =>
    obtain ⟨what, value⟩ := text
    simp only [checkTexts, checkText, seq_eq_ok, refuse_eq_ok, ih, List.forall_mem_cons,
      Bool.not_eq_true]

theorem checkCommitText_of_subset {events events' : List SerializedEvent}
    {entityTypes entityTypes' : List EntityType} {entityIds entityIds' : List EntityId}
    (h : checkCommitText events entityTypes entityIds = .ok ()) (hevents : events' ⊆ events)
    (htypes : entityTypes' ⊆ entityTypes) (hids : entityIds' ⊆ entityIds) :
    checkCommitText events' entityTypes' entityIds' = .ok () := by
  unfold checkCommitText at h ⊢
  rw [checkTexts_eq_ok] at h ⊢
  intro text htext
  refine h text ?_
  simp only [List.mem_append, List.mem_flatMap, List.mem_map] at htext ⊢
  rcases htext with (⟨event, hevent, htext⟩ | ⟨entityType, htype, htext⟩) | ⟨entityId, hid, htext⟩
  · exact .inl (.inl ⟨event, hevents hevent, htext⟩)
  · exact .inl (.inr ⟨entityType, htypes htype, htext⟩)
  · exact .inr ⟨entityId, hids hid, htext⟩

end Texts

theorem flatMap_filter_eq {α β : Type} {l : List α} {keep : α → Bool} {f : α → List β}
    (h : ∀ a ∈ l, keep a = false → f a = []) : (l.filter keep).flatMap f = l.flatMap f := by
  induction l with
  | nil => rfl
  | cons a l ih =>
    rw [List.forall_mem_cons] at h
    rw [List.filter_cons, List.flatMap_cons, ← ih h.2]
    cases hkeep : keep a with
    | true => rfl
    | false => rw [h.1 hkeep]; rfl

/-- Nothing of the items left out is missing exactly when they had none. -/
theorem flatMap_filter_perm {α β : Type} {l : List α} {keep : α → Bool} {f : α → List β} :
    ((l.filter keep).flatMap f).Perm (l.flatMap f) ↔ ∀ a ∈ l, keep a = false → f a = [] := by
  refine ⟨fun hperm => ?_, fun h => by rw [flatMap_filter_eq h]⟩
  have hsplit := ((List.filter_append_perm keep l).flatMap_right f).length_eq
  rw [List.flatMap_append, List.length_append, ← hperm.length_eq] at hsplit
  have hnone : (l.filter fun a => !keep a).flatMap f = [] :=
    List.length_eq_zero_iff.mp (by omega)
  rw [List.flatMap_eq_nil_iff] at hnone
  exact fun a ha hkeep => hnone a (List.mem_filter.mpr ⟨ha, by simp [hkeep]⟩)

namespace Commit

def moved (c : Commit Op) : Commit Op := { c with operations := [], views := [] }

theorem checkIdentities_moved (c : Commit Op) (events : List SerializedEvent) :
    c.moved.checkIdentities events = c.checkIdentities events := by
  induction events with
  | nil => rfl
  | cons event events ih =>
    simp only [checkIdentities, ih]
    rfl

theorem validate_moved {E : Env} {c : Commit Op} (h : c.validate E = .ok ()) :
    c.moved.validate E = .ok () := by
  obtain ⟨htext, hevents⟩ := seq_eq_ok.mp h
  refine seq_eq_ok.mpr ⟨htext, ?_⟩
  obtain ⟨entityId, events, snapshot, operations, views, outcome⟩ := c
  cases events with
  | nil => rfl
  | cons first rest =>
    simp only [checkEvents, seq_eq_ok] at hevents
    obtain ⟨htypes, hsnapshot, hidentity, hfirst, hcontiguous, -⟩ := hevents
    rw [← checkIdentities_moved] at hidentity
    simp only [moved, checkEvents, seq_eq_ok]
    exact ⟨htypes, hsnapshot, hidentity, hfirst, hcontiguous, rfl⟩

end Commit

namespace TransactionCommit

def allEvents (t : TransactionCommit Op) : List SerializedEvent := t.streams.flatMap (·.events)

def allSnapshots (t : TransactionCommit Op) : List (EntityId × NewSnapshot) :=
  t.streams.flatMap fun stream => (stream.snapshot.map (stream.entityId, ·)).toList

def allOperations (t : TransactionCommit Op) : List Op :=
  t.streams.flatMap (·.operations) ++ t.operations

def allViews (t : TransactionCommit Op) : List ProjectedView :=
  t.streams.flatMap (·.views) ++ t.views

def allOutcomes (t : TransactionCommit Op) : List Outcome :=
  t.streams.flatMap (·.outcome.toList) ++ t.outcome.toList

/-- Everything the first commit carries is in the second one exactly once. -/
structure Kept (t n : TransactionCommit Op) : Prop where
  events : n.allEvents.Perm t.allEvents
  snapshots : n.allSnapshots.Perm t.allSnapshots
  operations : n.allOperations.Perm t.allOperations
  views : n.allViews.Perm t.allViews
  outcomes : n.allOutcomes.Perm t.allOutcomes

section Parts

variable {t : TransactionCommit Op}

theorem streams_perm (t : TransactionCommit Op) :
    t.normalized.streams.Perm (t.written.map Commit.moved) :=
  List.perm_insertionSort _ _

theorem flatMap_normalized {β : Type} (f : Commit Op → List β) :
    (t.normalized.streams.flatMap f).Perm (t.written.flatMap fun c => f c.moved) := by
  have h := t.streams_perm.flatMap_right f
  rwa [List.flatMap_map] at h

theorem written_false {c : Commit Op} (h : (!c.events.isEmpty) = false) : c.events = [] := by
  simpa using h

theorem kept_events : t.normalized.allEvents.Perm t.allEvents := by
  refine (flatMap_normalized _).trans (.of_eq (flatMap_filter_eq fun c _ hempty => ?_))
  exact written_false hempty

theorem kept_snapshots (h : checkSnapshots t.streams = .ok ()) :
    t.normalized.allSnapshots.Perm t.allSnapshots := by
  refine (flatMap_normalized _).trans (.of_eq (flatMap_filter_eq fun c hc hempty => ?_))
  rw [show c.moved.snapshot = c.snapshot from rfl,
    checkSnapshots_eq_ok.mp h c hc (written_false hempty)]
  rfl

/-- The operations stand in the order the commit declares them, whether moved or not. -/
theorem kept_operations {E : Env} (h : checkStreams E [] t.streams = .ok ()) :
    t.normalized.allOperations = t.allOperations ∧ t.normalized.allViews = t.allViews := by
  have hbare : ∀ c ∈ t.streams, c.events = [] → c.operations = [] ∧ c.views = [] := fun c hc =>
    ((checkStreams_ok h).1 c hc).1.bare
  have hmoved : t.normalized.streams.flatMap (·.operations) = [] ∧
      t.normalized.streams.flatMap (·.views) = [] := by
    constructor
    all_goals
      rw [List.flatMap_eq_nil_iff]
      intro c hc
      obtain ⟨stream, -, rfl⟩ := mem_normalized_streams hc
      rfl
  constructor
  · rw [allOperations, hmoved.1, allOperations, List.nil_append]
    change t.written.flatMap (·.operations) ++ t.operations = _
    rw [written, flatMap_filter_eq fun c hc hempty => (hbare c hc (written_false hempty)).1]
  · rw [allViews, hmoved.2, allViews, List.nil_append]
    change t.written.flatMap (·.views) ++ t.views = _
    rw [written, flatMap_filter_eq fun c hc hempty => (hbare c hc (written_false hempty)).2]

/-- The outcomes that are gone are those of the dropped streams. -/
theorem kept_outcomes_iff : t.normalized.allOutcomes.Perm t.allOutcomes ↔
    ∀ c ∈ t.streams, c.events = [] → c.outcome = none := by
  have hleft : t.normalized.allOutcomes.Perm
      (t.written.flatMap (·.outcome.toList) ++ t.outcome.toList) :=
    (flatMap_normalized _).append_right _
  rw [hleft.congr_left, allOutcomes, List.perm_append_right_iff, written, flatMap_filter_perm]
  refine forall₂_congr fun c _ => ?_
  rw [Option.toList_eq_nil_iff, Bool.not_eq_false', List.isEmpty_iff]

end Parts

section Again

variable {t n : TransactionCommit Op}

/-- The order of streams without operations, all written, and of fences of other streams is
left as it is. -/
theorem Normal.normalized_eq (h : n.Normal) : n.normalized = n := by
  have hwritten : n.written = n.streams := by
    rw [written, List.filter_eq_self]
    intro c hc
    simp [h.events c hc]
  have hstreams : n.normalized.streams = n.streams := by
    rw [(streams_normalized h.events (h.sorted.imp le_of_lt)).2]
    conv_rhs => rw [← List.map_id n.streams]
    refine List.map_congr_left fun c hc => ?_
    obtain ⟨hoperations, hviews⟩ := h.moved c hc
    rw [← hoperations, ← hviews]
    rfl
  have hfences : n.normalized.fences = n.fences := by
    change (n.fences.insertionSort fun a b => a.entityId ≤ b.entityId).filter _ = n.fences
    rw [(h.fencesSorted.imp le_of_lt).insertionSort_eq, List.filter_eq_self, hwritten]
    intro fence hfence
    simp only [Bool.not_eq_true', List.any_eq_false, beq_iff_eq]
    exact fun c hc => h.unwritten fence hfence c hc
  have hnone : n.streams.flatMap (·.operations) = [] ∧ n.streams.flatMap (·.views) = [] := by
    simp only [List.flatMap_eq_nil_iff]
    exact ⟨fun c hc => (h.moved c hc).1, fun c hc => (h.moved c hc).2⟩
  have hoperations : n.normalized.operations = n.operations := by
    change n.written.flatMap (·.operations) ++ n.operations = n.operations
    rw [hwritten, hnone.1, List.nil_append]
  have hviews : n.normalized.views = n.views := by
    change n.written.flatMap (·.views) ++ n.views = n.views
    rw [hwritten, hnone.2, List.nil_append]
  calc n.normalized
    _ = ⟨n.normalized.streams, n.normalized.fences, n.normalized.operations, n.normalized.views,
        n.normalized.outcome⟩ := rfl
    _ = n := by rw [hstreams, hfences, hoperations, hviews]; rfl

theorem checkOutcomeText_normalized {E : Env} (h : t.checkOutcomeText E = .ok ()) :
    t.normalized.checkOutcomeText E = .ok () := by
  have hmem : ∀ c ∈ t.normalized.streams, ∃ stream ∈ t.streams, c = stream.moved := by
    intro c hc
    obtain ⟨stream, hstream, rfl⟩ := mem_normalized_streams hc
    exact ⟨stream, (mem_written.mp hstream).1, rfl⟩
  have hfences : t.normalized.fences ⊆ t.fences := fun fence hfence =>
    (List.mem_insertionSort _).mp (List.mem_of_mem_filter hfence)
  unfold checkOutcomeText at h ⊢
  rw [show t.normalized.outcome = t.outcome from rfl]
  cases houtcome : t.outcome with
  | none => rfl
  | some outcome =>
    simp only [houtcome, seq_eq_ok] at h ⊢
    refine ⟨h.1, checkCommitText_of_subset h.2 ?_ ?_ ?_⟩
    · intro event hevent
      obtain ⟨c, hc, hevent⟩ := List.mem_flatMap.mp hevent
      obtain ⟨stream, hstream, rfl⟩ := hmem c hc
      exact List.mem_flatMap.mpr ⟨stream, hstream, hevent⟩
    · refine List.append_subset.mpr ⟨?_, ?_⟩
      · exact List.subset_append_of_subset_left _ (List.map_subset _ hfences)
      · refine List.subset_append_of_subset_right _ fun entityType htype => ?_
        obtain ⟨c, hc, htype⟩ := List.mem_filterMap.mp htype
        obtain ⟨stream, hstream, rfl⟩ := hmem c hc
        exact List.mem_filterMap.mpr ⟨stream, hstream, htype⟩
    · refine List.append_subset.mpr ⟨?_, ?_⟩
      · exact List.subset_append_of_subset_left _ (List.map_subset _ hfences)
      · refine List.subset_append_of_subset_right _ fun entityId hid => ?_
        obtain ⟨c, hc, rfl⟩ := List.mem_map.mp hid
        obtain ⟨stream, hstream, rfl⟩ := hmem c hc
        exact List.mem_map.mpr ⟨stream, hstream, rfl⟩

theorem checkStreams_normalized {E : Env} (h : checkStreams E [] t.streams = .ok ()) :
    checkStreams E [] t.normalized.streams = .ok () := by
  obtain ⟨hall, hnodup⟩ := checkStreams_eq_ok.mp h
  refine checkStreams_eq_ok.mpr ⟨fun c hc => ?_, ?_⟩
  · obtain ⟨stream, hstream, rfl⟩ := mem_normalized_streams hc
    obtain ⟨hvalid, hreserved, -⟩ := hall stream (mem_written.mp hstream).1
    exact ⟨Commit.validate_moved hvalid, hreserved, List.not_mem_nil⟩
  · rw [(t.streams_perm.map _).nodup_iff, List.map_map]
    exact hnodup.sublist (List.filter_sublist.map _)

theorem checkFences_normalized (h : checkFences [] t.fences = .ok ()) :
    checkFences [] t.normalized.fences = .ok () := by
  obtain ⟨hall, hnodup⟩ := checkFences_eq_ok.mp h
  have hperm := List.perm_insertionSort (fun a b : ReadFence => a.entityId ≤ b.entityId) t.fences
  refine checkFences_eq_ok.mpr ⟨fun fence hfence => ?_, ?_⟩
  · exact hall fence (hperm.mem_iff.mp (List.mem_of_mem_filter hfence))
  · exact ((hperm.map _).nodup_iff.mpr hnodup).sublist (List.filter_sublist.map _)

theorem carried_eq (t : TransactionCommit Op) :
    t.carried = t.allOperations.length + t.allViews.length := by
  rw [carried, List.sum_map_add, allOperations, allViews, List.length_append, List.length_append,
    List.length_flatMap, List.length_flatMap]
  omega

/-- A commit that carries operations still has a stream with events. -/
theorem checkCarried_normalized {E : Env} (hstreams : checkStreams E [] t.streams = .ok ())
    (h : t.checkCarried = .ok ()) : t.normalized.checkCarried = .ok () := by
  have hcarried : t.normalized.carried = t.carried := by
    obtain ⟨hoperations, hviews⟩ := kept_operations hstreams
    rw [carried_eq, carried_eq, hoperations, hviews]
  simp only [checkCarried, refuse_eq_ok, not_and, hcarried, Bool.not_eq_true, List.all_eq_false,
    List.isEmpty_iff] at h ⊢
  intro hpos
  obtain ⟨c, hc, hevents⟩ := h hpos
  refine ⟨c.moved, t.streams_perm.mem_iff.mpr (List.mem_map_of_mem ?_), hevents⟩
  exact mem_written.mpr ⟨hc, hevents⟩

theorem normalize_again {E : Env} (h : t.normalize E = .ok n) : n.normalize E = .ok n := by
  obtain ⟨rfl, hnormal⟩ := normalize_ok h
  have heq := hnormal.normalized_eq
  simp only [normalize, seq_eq_ok] at h ⊢
  obtain ⟨htext, hstreams, hfences, -, hcarried, hviews, -⟩ := h
  refine ⟨checkOutcomeText_normalized htext, checkStreams_normalized hstreams,
    checkFences_normalized hfences, ?_, checkCarried_normalized hstreams hcarried, ?_, ?_⟩
  · exact checkSnapshots_eq_ok.mpr fun c hc hempty => absurd hempty (hnormal.events c hc)
  · rwa [heq]
  · rw [heq]
    rfl

end Again

/-- Normalizing refuses a commit or keeps all it carries, unless a stream without events has an
outcome; it always sorts, drops covered fences and is idempotent. -/
theorem normalize_keeps_iff (E : Env) (t : TransactionCommit Op) :
    (∀ n, t.normalize E = .ok n → t.Kept n ∧
      n.streams.Pairwise (fun a b => a.entityId < b.entityId) ∧
      (∀ fence ∈ n.fences, ∀ c ∈ n.streams, c.entityId ≠ fence.entityId) ∧
      (n.fences.map (·.entityId)).Nodup ∧ n.normalize E = .ok n) ↔
    ((∃ n, t.normalize E = .ok n) → ∀ c ∈ t.streams, c.events = [] → c.outcome = none) := by
  constructor
  · rintro h ⟨n, hn⟩
    obtain ⟨rfl, -⟩ := normalize_ok hn
    exact kept_outcomes_iff.mp (h _ hn).1.outcomes
  · intro h n hn
    have houtcomes := h ⟨n, hn⟩
    obtain ⟨rfl, hnormal⟩ := normalize_ok hn
    have hchecks := hn
    simp only [normalize, seq_eq_ok] at hchecks
    obtain ⟨-, hstreams, -, hsnapshots, -⟩ := hchecks
    obtain ⟨hoperations, hviews⟩ := kept_operations hstreams
    refine ⟨⟨kept_events, kept_snapshots hsnapshots, .of_eq hoperations, .of_eq hviews,
      kept_outcomes_iff.mpr houtcomes⟩, hnormal.sorted, hnormal.unwritten, ?_, normalize_again hn⟩
    exact List.pairwise_map.mpr (hnormal.fencesSorted.imp ne_of_lt)

def outcomeInStream : TransactionCommit Empty :=
  { streams := [{ entityId := "a", events := [], outcome := some (.accepted "k" "digest") }] }

/-- The commit is accepted and normalizes to one that writes nothing at all. -/
theorem outcomeInStream_dropped :
    outcomeInStream.normalize .plain = .ok { streams := [] } ∧
    outcomeInStream.allOutcomes = [.accepted "k" "digest"] ∧
    ¬outcomeInStream.Kept { streams := [] } := by
  refine ⟨rfl, rfl, fun hkept => ?_⟩
  have hlength := hkept.outcomes.length_eq
  cases hlength

end TransactionCommit

end EventStore
