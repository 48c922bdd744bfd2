import EventStore.Runs.PrefixLoads

/-!
Nothing committed is lost. Whatever snapshots and compactions ran, the reads of a load made at one
moment give back the fold of every event ever committed to the stream.
-/
namespace EventStore

open Result Program World

section Replaying

variable {A : Aggregate} {log : List SerializedEvent}

/-- Events in their places that fold replay. -/
theorem Loaded.replayAll_of_foldFrom {loaded : Loaded A} {events : List SerializedEvent}
    {state : A.State}
    (hplaces : Consecutive.From SerializedEvent.sequence (loaded.sequence + 1) events)
    (hlength : loaded.sequence + events.length ≤ maxSequence)
    (h : A.foldFrom loaded.aggregate events = .ok state) :
    ∃ loaded', loaded.replayAll events = .ok loaded' := by
  induction events generalizing loaded with
  | nil => exact ⟨loaded, rfl⟩
  | cons stored events ih =>
    obtain ⟨event, hread, h⟩ := bind_eq_ok.mp h
    rw [List.length_cons] at hlength
    have hnext : stored.sequence = EventSequence.next loaded.sequence := by
      rw [EventSequence.next_of_lt (by omega)]
      exact hplaces.1
    have hat : (loaded.after stored event).sequence = loaded.sequence + 1 := hplaces.1
    obtain ⟨loaded', hrest⟩ := ih (hat ▸ hplaces.2) (by omega) h
    exact ⟨loaded', bind_eq_ok.mpr
      ⟨_, Loaded.replay_eq_ok.mpr ⟨hnext, event, hread, rfl⟩, hrest⟩⟩

theorem Loaded.start_ok (hA : A.RoundTrips) (entityId : EntityId)
    {found : Option SerializedSnapshot}
    (hfound : ∀ snapshot, found = some snapshot → snapshot.Of A log) :
    ∃ loaded : Loaded A, Loaded.start entityId found = .ok loaded ∧
      ∀ snapshot, found = some snapshot → snapshot.eventSequence = loaded.sequence := by
  cases found with
  | none => exact ⟨.new entityId, rfl, nofun⟩
  | some snapshot =>
    obtain ⟨state, -, hencode⟩ := (hfound snapshot rfl).state
    rw [Loaded.start, hA.state hencode]
    exact ⟨_, rfl, by rintro _ ⟨⟩; rfl⟩

end Replaying

variable {κ : Type} {A : κ → Aggregate} {kindOf : EntityId → κ}
variable {ι : Type} [DecidableEq ι] [DecidableEq κ] {E : Env} {x : ι → Operation A kindOf}
variable {w : World ι} {entityId : EntityId}

omit [DecidableEq ι] [DecidableEq κ] in
/-- The log folds after every commit. -/
theorem World.Consistent.folds {current : Prop} (hw : w.Consistent E current x)
    (hwrites : ∀ entry ∈ w.applied, entry.write.Sound) (k : Nat) (hk : k ≤ w.applied.length) :
    ∃ state, (A (kindOf entityId)).fold (logOf (w.applied.take k) entityId) = .ok state := by
  induction k with
  | zero => exact ⟨_, rfl⟩
  | succ k ih =>
    obtain ⟨state, hstate⟩ := ih (by omega)
    have hentry := List.getElem?_eq_getElem (show k < w.applied.length by omega)
    have htake : w.applied.take (k + 1) = w.applied.take k ++ [w.applied[k]] := by
      rw [List.take_add_one, hentry]
      rfl
    have hsound := hwrites _ (List.getElem_mem (show k < w.applied.length by omega))
    have hlog : logOf (w.applied.take (k + 1)) entityId <+: w.log entityId :=
      logOf_mono (List.take_prefix _ _) entityId
    rw [htake, logOf_append, logOf_singleton hsound] at hlog ⊢
    cases hc : writerOf w.applied[k].write.streams entityId with
    | none =>
      rw [List.append_nil]
      exact ⟨state, hstate⟩
    | some c =>
      rw [hc] at hlog
      obtain ⟨hmem, hevents, rfl⟩ := writerOf_eq_some hc
      obtain ⟨hrequest, i, -, hsubmits⟩ := hw.applied k _ hentry
      obtain ⟨shown, state', bytes, hcontinues, -, -⟩ :=
        (hrequest ▸ hsubmits.continues).shows hmem hevents
      -- the commit was decided on a prefix of the log, and its numbers say it is all of it
      have hnumbered : Consecutive.From SerializedEvent.sequence 1 (w.log c.entityId) :=
        (hw.sound c.entityId).numbered
      obtain ⟨more, hmore⟩ := hlog
      rw [← hmore, List.append_assoc, Consecutive.from_append, Consecutive.from_append] at hnumbered
      have hfirst := List.head?_eq_some_head hevents
      refine ⟨state', hcontinues.fold_of_admitted hfirst ?_⟩
      rw [List.head?_eq_getElem?] at hfirst
      have hplace := Consecutive.number_of_getElem? hnumbered.2.1 hfirst
      simp only [Nat.cast_zero] at hplace
      omega

omit [DecidableEq κ] in
theorem writes_sound
    {first threads : ι → Program (Option ((entityId : EntityId) × Loaded (A (kindOf entityId))))}
    (hreach : Pool.Reaches (Acts E) (Moves E noOne) (World.start .empty, first) (w, threads)) :
    ∀ entry ∈ w.applied, entry.write.Sound := by
  refine Pool.invariant (J := fun w : World ι => ∀ entry ∈ w.applied, entry.write.Sound) ?_ ?_
    hreach ?_
  · exact fun _ s _ _ t hs hact => hact.effect.forall_mem (fun _ h => Request.plan_sound h.2) hs
  · exact fun s t hs hmove => hmove.effect.forall_mem (fun _ h => Request.plan_sound h.2) hs
  · exact List.forall_mem_nil _

/-- In every state that store operations come to, a load whose reads see that state returns, with
the fold of the whole log. -/
theorem committed_events_load (E : Env) (hA : ∀ kind, (A kind).RoundTrips)
    (x : ι → Operation A kindOf) (htyped : ∀ i, (x i).Typed) (w : World ι)
    (threads : ι → Program (Option ((entityId : EntityId) × Loaded (A (kindOf entityId)))))
    (hreach : Pool.Reaches (Acts E) (Moves E noOne)
      (World.start .empty, fun i => (x i).program E) (w, threads))
    (entityId : EntityId) (hlength : ((w.log entityId).length : Int) ≤ maxSequence) :
    ∃ loaded loaded' : Loaded (A (kindOf entityId)),
      Loaded.start entityId (w.stores.snapshot entityId) = .ok loaded ∧
      loaded.replayAll (w.stores.eventsAfter entityId loaded.sequence) = .ok loaded' ∧
      (A (kindOf entityId)).fold (w.log entityId) = .ok loaded'.aggregate ∧
      loaded'.sequence = (w.log entityId).length := by
  obtain ⟨hw, -⟩ : w.Consistent E False x ∧ _ :=
    consistent_of_reaches hA False.elim htyped (reaches_when_true hreach)
  have hholds : (w.stores.held entityId).Holds (w.log entityId) := hw.sound entityId
  obtain ⟨state, hfold⟩ := hw.folds (writes_sound hreach) w.applied.length le_rfl
  rw [List.take_length, ← log_eq] at hfold
  obtain ⟨loaded, hstart, hsnapshot⟩ := Loaded.start_ok (hA _) entityId (hw.snapshots entityId)
  obtain ⟨hof, -⟩ := Loaded.start_of (hA _) (hw.snapshots entityId) hstart
  have hnonneg := hof.nonneg
  have hevents : w.stores.eventsAfter entityId loaded.sequence =
      (w.log entityId).drop loaded.sequence.toNat := by
    obtain ⟨k, hk, hplace⟩ := hholds.above hnonneg
    obtain hplace | ⟨hlt, -, -, snapshot, hs, hle⟩ := hplace
    · rw [hplace, Int.toNat_natCast]
      exact hplace ▸ hk
    · have := hsnapshot snapshot hs
      omega
  have hsplit := List.take_append_drop loaded.sequence.toNat (w.log entityId)
  have hwithin := hof.within
  have hbelow := List.length_take_of_le
    (show loaded.sequence.toNat ≤ (w.log entityId).length by omega)
  have hplaces : Consecutive.From SerializedEvent.sequence (loaded.sequence + 1)
      ((w.log entityId).drop loaded.sequence.toNat) := by
    have hnumbered := hholds.numbered
    rw [← hsplit, Consecutive.from_append, hbelow] at hnumbered
    rw [show loaded.sequence + 1 = 1 + (loaded.sequence.toNat : Int) by omega]
    exact hnumbered.2
  rw [← hsplit, Aggregate.fold_append hof.state] at hfold
  have hshort := List.length_drop (i := loaded.sequence.toNat) (l := w.log entityId)
  obtain ⟨loaded', hreplay⟩ := Loaded.replayAll_of_foldFrom hplaces (by omega) hfold
  obtain ⟨hof', -, hend⟩ := Loaded.replayAll_drop hholds.numbered hof (by omega) hreplay
  have hat := hend (by omega)
  have hstate := hof'.state
  rw [hat, Int.toNat_natCast, List.take_length] at hstate
  exact ⟨loaded, loaded', hstart, hevents ▸ hreplay, hstate, hat⟩

/-- The stream compacted below its catch-up snapshot. -/
theorem compacted_stream_loads :
    let w := (stale (List.replicate 7 0 ++ List.replicate 4 2 ++ [3])).1
    ∃ loaded loaded' : Loaded counter, Loaded.start "a" (w.stores.snapshot "a") = .ok loaded ∧
      loaded.replayAll (w.stores.eventsAfter "a" loaded.sequence) = .ok loaded' ∧
      counter.fold (w.log "a") = .ok loaded'.aggregate ∧
      loaded'.sequence = (w.log "a").length :=
  committed_events_load Env.plain (fun _ => counter.roundTrips) staleness typed_staleness _ _
    (reaches_turns Env.plain (Moves Env.plain noOne) _
      (List.replicate 7 0 ++ List.replicate 4 2 ++ [3])) "a" (by decide +kernel)

end EventStore
