import EventStore.Runs.Operations

/-!
Runs in which nothing is compacted and no one else writes. Every event ever committed
is then still stored, and the view rows are those that the commits' operations leave,
one commit after another.
-/
namespace EventStore

open Result

variable {ι : Type}

def Stores.allEvents (s : Stores) : List SerializedEvent :=
  s.streams.toList.flatMap fun entry => entry.2.events.toList.map (·.2)

def Ask.compacts : Ask → Bool
  | .compactBelow _ _ => true
  | _ => false

namespace World

/-- What moves besides the programs: commits in flight, declarations and the rebuild
fence. -/
inductive Undisturbed (E : Env) (w : World ι) : World ι → Prop
  | lands {w' : World ι} (h : Lands E w w') : Undisturbed E w w'
  | control (manifest : Option FeatureManifest) (rebuild : RebuildState) :
      Undisturbed E w (w.withStores { w.stores with manifest, rebuild })

theorem Undisturbed.moves {E : Env} {w w' : World ι} (h : Undisturbed E w w') :
    Moves E noOne w w' := by
  cases h with
  | lands h => exact .inl h
  | control manifest rebuild => exact .inr (.control manifest rebuild)

/-- Nothing committed is gone, and the rows are what the commits' operations leave. -/
structure Whole (w : World ι) : Prop where
  sound : w.history.Sound
  writes : ∀ entry ∈ w.applied, entry.write.Sound ∧ entry.write = entry.request.write
  kept : ∀ entityId (k : Int), 0 < k → k ≤ (w.stores.held entityId).head →
    (w.stores.held entityId).events.contains k = true
  views : w.stores.views = applyViews ∅ (w.applied.flatMap (·.write.views))

section Steps

variable {E : Env} {w w' : World ι}

theorem whole_start : (World.start Stores.empty : World ι).Whole := by
  refine ⟨History.sound_empty, ?_, ?_, rfl⟩
  · intro entry hentry
    cases hentry
  · intro entityId k hpos hle
    have : (Stores.empty.held entityId).head = 0 := by
      simp [Stores.empty, Stores.held, Stream.absent]
    simp only [start] at hle
    omega

theorem Whole.quiet (h : w.Whole) (hdata : SameData w.stores w'.stores)
    (happlied : w'.applied = w.applied) : w'.Whole := by
  refine ⟨fun entityId => ?_, ?_, fun entityId => ?_, ?_⟩
  · have hlog : w'.history.log entityId = w.history.log entityId := by
      simp [history, History.log, History.written, happlied]
    rw [hlog]
    simpa [history, hdata.held] using h.sound entityId
  · rw [happlied]
    exact h.writes
  · rw [hdata.held]
    exact h.kept entityId
  · rw [hdata.views, happlied]
    exact h.views

theorem kept_applyStream {stream : Stream} {log : List SerializedEvent} {c : Commit Empty}
    (hholds : stream.Holds log) (hv : c.Valid) (hpass : streamFailure stream c = none)
    (hkept : ∀ k : Int, 0 < k → k ≤ stream.head → stream.events.contains k = true) (k : Int)
    (hpos : 0 < k) (hle : k ≤ (applyStream stream c).head) :
    (applyStream stream c).events.contains k = true := by
  cases hfirst : c.events.head? with
  | none =>
    have hnil : c.events = [] := List.head?_eq_none_iff.mp hfirst
    simp only [applyStream, hnil] at hle ⊢
    exact hkept k hpos hle
  | some first =>
    have hplace := Stream.first_of_passes hholds hfirst (hv.positive first hfirst) hpass
    have hhead := hholds.head
    have hlength := (hholds.applyStream hv hpass).head
    rw [List.length_append] at hlength
    rw [OrdMap.contains_eq, get_applyStream hv hfirst]
    by_cases hin : first.sequence ≤ k ∧ k < first.sequence + c.events.length
    · rw [if_pos hin, List.getElem?_eq_getElem (by omega)]
      rfl
    · rw [if_neg hin, ← OrdMap.contains_eq]
      exact hkept k hpos (by push_cast at hlength; omega)

theorem Whole.commit (h : w.Whole) {author : Option ι} {started : Nat} {q : Request}
    {write : Write} (hplan : q.plan E = .ok (some write)) (haccepted : write.Accepted w.stores)
    (hdata : SameData (write.apply w.stores) w'.stores)
    (happlied : w'.applied = w.applied ++ [⟨author, started, q, write⟩]) : w'.Whole := by
  have hsound := Request.plan_sound hplan
  have heffect : Effect E (fun _ _ _ => True) (fun _ => True) w w' :=
    .commit ⟨trivial, hplan⟩ haccepted hdata happlied
  refine ⟨heffect.sound h.sound, ?_, fun entityId => ?_, ?_⟩
  · rw [happlied, List.forall_mem_append, List.forall_mem_singleton]
    exact ⟨h.writes, hsound, Request.write_of_plan hplan⟩
  · rw [hdata.held, Write.held_apply hsound]
    cases hc : writerOf write.streams entityId with
    | none => exact h.kept entityId
    | some c =>
      obtain ⟨hmem, -, hid⟩ := writerOf_eq_some hc
      exact kept_applyStream (h.sound entityId) (hsound.valid c hmem)
        (hid ▸ haccepted.streams c hmem) (h.kept entityId)
  · rw [hdata.views, happlied, List.flatMap_append]
    simp only [Write.apply, applyWrite, h.views, applyViews, List.flatMap_singleton,
      List.foldl_append]

theorem Whole.snapshot (h : w.Whole) (E : Env) (handle : Handle) (snapshot : SerializedSnapshot) :
    (w.withStores ((handle.over w.stores).putSnapshot E snapshot).2.stores).Whole := by
  have heffect : Effect E (fun _ _ _ => True) (fun _ => True) w
      (w.withStores ((handle.over w.stores).putSnapshot E snapshot).2.stores) :=
    putSnapshot_effect handle trivial
  cases History.putSnapshot_changes Applied.write w.applied E w.stores handle snapshot with
  | quiet data _ => exact h.quiet data rfl
  | commit source _ _ _ | compact source _ _ _ _ => exact source.elim
  | @snapshot new _ head newer data _ =>
    refine ⟨heffect.sound h.sound, h.writes, fun entityId => ?_, data.views.trans h.views⟩
    rw [show (w.withStores _).stores.held entityId = _ from data.held entityId,
      History.held_setStream]
    split
    · rename_i hid
      subst hid
      exact h.kept new.entityId
    · exact h.kept entityId

theorem Whole.land (h : w.Whole) (handle : Handle) (author : Option ι) (started : Nat)
    (q : Request) : (w.land E handle author started q).2.Whole := by
  rcases land_cases E handle author started q w with
    ⟨data, applied, -⟩ | ⟨-, write, plan, accepted, data, applied⟩
  · exact h.quiet data applied
  · exact h.commit plan accepted data applied

theorem Whole.same {inFlight : List (InFlight ι)} {started : ι → Nat} {refused : ι → Bool}
    (h : w.Whole) : ({ w with inFlight, started, refused } : World ι).Whole :=
  ⟨h.sound, h.writes, h.kept, h.views⟩

/-- Every call but a compaction keeps what was committed. -/
theorem Whole.acts [DecidableEq ι] (h : w.Whole) {i : ι} {a : Ask} {answer : Answer a}
    (ha : a.compacts = false) (hact : Acts E i w a answer w') : w'.Whole := by
  cases hact with
  | submit handle q => exact (h.land handle (some i) (w.started i) q).same
  | putSnapshot handle snapshot | putSnapshotLost handle snapshot _ =>
    exact h.snapshot E handle snapshot
  | compactBelow _ _ _ | compactBelowFails _ _ _ | compactBelowLost _ _ _ _ => cases ha
  | declareHistory types manifest => exact h.quiet ⟨rfl, rfl, rfl⟩ rfl
  | span entityId | submitLost q source => exact h.same
  | _ => exact h

theorem Whole.undisturbed (h : w.Whole) (hmove : Undisturbed E w w') : w'.Whole := by
  cases hmove with
  | lands hlands =>
    cases hlands with
    | land handle f before after hf hok =>
      exact (h.land handle (some f.author) f.started f.request).same
  | control manifest rebuild => exact h.quiet ⟨rfl, rfl, rfl⟩ rfl

end Steps

section Contents

variable {w : World ι}

theorem Whole.stored (h : w.Whole) (entityId : EntityId) :
    (w.stores.held entityId).events.toList.map (·.2) = w.log entityId := by
  have hholds : (w.stores.held entityId).Holds (w.log entityId) := h.sound entityId
  obtain ⟨floor, hfloor, hle, -, hstored⟩ := hholds.stored
  have hhead := hholds.head
  have hzero : floor = 0 := by
    by_contra hne
    have hcontains := h.kept entityId floor (by omega) hle
    rw [OrdMap.contains_eq, hstored floor, if_neg (by omega)] at hcontains
    cases hcontains
  refine Consecutive.values_toList hholds.numbered fun k => ?_
  rw [hstored k, hzero]
  by_cases hk : 0 < k ∧ k ≤ (w.stores.held entityId).head
  · rw [if_pos hk, if_pos (by omega)]
  · rw [if_neg hk, if_neg (by omega)]

/-- The events stored are those of the commits. -/
theorem Whole.allEvents_perm (h : w.Whole) :
    w.stores.allEvents.Perm (w.applied.flatMap (·.write.events)) := by
  have hwritten : w.applied.flatMap (·.write.events) = w.history.written := by
    simp [history, History.written, List.flatMap_map]
  have hstream : ∀ entry ∈ w.stores.streams.toList,
      entry.2.events.toList.map (·.2) = w.log entry.1 := by
    rintro ⟨entityId, stream⟩ hentry
    have hheld : w.stores.held entityId = stream := by
      rw [Stores.held, OrdMap.mem_toList.mp hentry]
      rfl
    rw [← h.stored entityId, hheld]
  have hnodup : (w.history.written.map fun event => (event.entityId, event.sequence)).Nodup :=
    History.nodup_addresses fun other => Consecutive.nodup_map (h.sound other).numbered
  rw [hwritten, Stores.allEvents, List.flatMap_congr hstream]
  refine (List.perm_ext_iff_of_nodup ?_ (List.Nodup.of_map _ hnodup)).mpr fun event => ?_
  · rw [List.nodup_flatMap]
    refine ⟨fun entry _ => (List.Nodup.of_map _ hnodup).filter _, ?_⟩
    refine (Std.ExtTreeMap.distinct_keys_toList (t := w.stores.streams)).imp ?_
    intro a b hab event ha hb
    have ha := (List.mem_filter.mp ha).2
    have hb := (List.mem_filter.mp hb).2
    rw [beq_iff_eq] at ha hb
    exact hab (by rw [← ha, ← hb]; exact Std.ReflCmp.compare_self)
  · rw [List.mem_flatMap]
    constructor
    · rintro ⟨entry, -, hevent⟩
      exact (List.mem_filter.mp hevent).1
    · intro hevent
      have hlog : event ∈ w.log event.entityId := List.mem_filter.mpr ⟨hevent, by simp⟩
      have hstored := h.stored event.entityId
      cases hget : w.stores.streams[event.entityId]? with
      | none =>
        rw [Stores.held, hget] at hstored
        rw [← hstored] at hlog
        simp [Stream.absent] at hlog
      | some stream => exact ⟨(event.entityId, stream), OrdMap.mem_toList.mpr hget, hlog⟩

end Contents

end World

end EventStore
