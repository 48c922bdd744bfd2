import EventStore.Core.TypeScript
import EventStore.Memory.StreamLog

/-!
What the TypeScript repository's calls do to the streams. A commit of the package is checked and
written as one of the crate, apart from the ends of the 64-bit range, so a stream keeps its log.
-/
namespace EventStore.TypeScript

open Result

namespace Commit

theorem checkContiguous_ok {first : SerializedEvent} {events : List SerializedEvent}
    (h : checkContiguous (first :: events) = .ok ()) :
    Consecutive.From SerializedEvent.sequence first.sequence (first :: events) := by
  induction events generalizing first with
  | nil => exact ⟨rfl, trivial⟩
  | cons second events ih =>
    simp only [checkContiguous] at h
    split at h
    · cases h
    · rename_i hnext
      have hnext : second.sequence = first.sequence + 1 := not_not.mp hnext
      exact ⟨rfl, hnext ▸ ih h⟩

end Commit

variable {c : Commit}

theorem validateCommit_ok (h : validateCommit c = .ok ()) : c.toCrate.Valid := by
  obtain ⟨-, h⟩ := seq_eq_ok.mp h
  cases hevents : c.events with
  | nil =>
    refine ⟨?_, ?_, ?_, ?_, ?_, by simp [Commit.toCrate], fun _ => ⟨rfl, rfl⟩⟩ <;>
      simp [Commit.toCrate, hevents]
  | cons first events =>
    rw [hevents] at h
    simp only [seq_eq_ok] at h
    obtain ⟨htypes, hsnapshot, hids, hpositive, hcontiguous⟩ := h
    have hhead : c.toCrate.events.head? = some first := by
      simp [Commit.toCrate, hevents]
    have hfirst {other : SerializedEvent} (hother : c.toCrate.events.head? = some other) :
        other = first := Option.some.inj (hother.symm.trans hhead)
    refine ⟨?_, ?_, ?_, ?_, ?_, by simp [Commit.toCrate], fun _ => ⟨rfl, rfl⟩⟩
    · rw [← hevents] at hids
      exact EventStore.Commit.checkIdentities_ok hids
    · intro other hother
      rw [hfirst hother]
      exact EventStore.Commit.checkEntityTypes_ok (c := c.toCrate) htypes
    · intro other hother
      rw [hfirst hother]
      exact EventStore.Commit.checkFirst_ok hpositive
    · intro other hother
      rw [hfirst hother]
      have := Commit.checkContiguous_ok hcontiguous
      rwa [← hevents] at this
    · intro other hother
      rw [hfirst hother]
      exact EventStore.Commit.checkSnapshot_ok (c := c.toCrate) hsnapshot

/-- A normalized transaction: valid commits with events, sorted by their streams. -/
structure NormalizedTransaction.Normal (t : NormalizedTransaction) : Prop where
  valid : ∀ c ∈ t.streams, c.toCrate.Valid
  written : ∀ c ∈ t.streams, c.events ≠ []
  sorted : t.streams.Pairwise fun a b => a.entityId < b.entityId

theorem TransactionCommit.checkStreams_ok {listed : List EntityId} {streams : List Commit}
    (h : checkStreams listed streams = .ok ()) :
    (∀ c ∈ streams, c.toCrate.Valid ∧ c.entityId ∉ listed) ∧
      (streams.map (·.entityId)).Nodup := by
  induction streams generalizing listed with
  | nil => simp
  | cons c streams ih =>
    simp only [checkStreams, seq_eq_ok, refuse_eq_ok] at h
    obtain ⟨hvalid, -, hlisted, hrest⟩ := h
    obtain ⟨hall, hnodup⟩ := ih hrest
    refine ⟨fun other hother => ?_, ?_⟩
    · obtain rfl | hother := List.mem_cons.mp hother
      · exact ⟨validateCommit_ok hvalid, hlisted⟩
      · obtain ⟨hv, hout⟩ := hall other hother
        exact ⟨hv, fun hmem => hout (List.mem_cons_of_mem _ hmem)⟩
    · rw [List.map_cons, List.nodup_cons]
      refine ⟨fun hmem => ?_, hnodup⟩
      obtain ⟨other, hother, heq⟩ := List.mem_map.mp hmem
      exact (hall other hother).2 (by simp [heq])

variable {n : NormalizedTransaction} {t : TransactionCommit} {E : Env}

theorem normalizeTransaction_streams (h : normalizeTransaction E t = .ok n) :
    TransactionCommit.checkStreams [] t.streams = .ok () ∧
      n.streams = (t.written.map fun stream => { stream with projections := [] }).insertionSort
        fun a b => a.entityId ≤ b.entityId := by
  simp only [normalizeTransaction, seq_eq_ok] at h
  obtain ⟨hstreams, -, -, h⟩ := h
  refine ⟨hstreams, ?_⟩
  split at h
  · cases h
    rfl
  · simp only [seq_eq_ok] at h
    obtain ⟨-, -, h⟩ := h
    cases h
    rfl

theorem mem_normalized (h : normalizeTransaction E t = .ok n) (hc : c ∈ n.streams) :
    ∃ stream ∈ t.streams, stream.events ≠ [] ∧ c = { stream with projections := [] } := by
  rw [(normalizeTransaction_streams h).2, (List.perm_insertionSort _ _).mem_iff] at hc
  obtain ⟨stream, hstream, rfl⟩ := List.mem_map.mp hc
  obtain ⟨hin, hevents⟩ := List.mem_filter.mp hstream
  exact ⟨stream, hin, by simpa using hevents, rfl⟩

theorem normalizeTransaction_ok (h : normalizeTransaction E t = .ok n) : n.Normal := by
  obtain ⟨hstreams, heq⟩ := normalizeTransaction_streams h
  obtain ⟨hall, hnodup⟩ := TransactionCommit.checkStreams_ok hstreams
  refine ⟨fun c hc => ?_, fun c hc => ?_, ?_⟩
  · obtain ⟨stream, hin, -, rfl⟩ := mem_normalized h hc
    exact (hall stream hin).1
  · obtain ⟨stream, -, hevents, rfl⟩ := mem_normalized h hc
    exact hevents
  · rw [heq]
    apply EventStore.TransactionCommit.insertionSort_strict Commit.entityId
    rw [List.map_map]
    exact hnodup.sublist (List.filter_sublist.map _)

theorem commitAsTransaction_ok (h : commitAsTransaction E c = .ok n) :
    n.Normal ∧ ∀ d ∈ n.streams, c.events ≠ [] ∧ d = { c with projections := [] } := by
  simp only [commitAsTransaction, seq_eq_ok] at h
  obtain ⟨-, -, h⟩ := h
  obtain ⟨normalized, hnormalized, h⟩ := bind_eq_ok.mp h
  have heq : normalized = n := by
    split at h
    · obtain ⟨-, h⟩ := seq_eq_ok.mp h
      cases h
      rfl
    · cases h
      rfl
  subst heq
  refine ⟨normalizeTransaction_ok hnormalized, fun d hd => ?_⟩
  obtain ⟨stream, hin, hevents, rfl⟩ := mem_normalized hnormalized hd
  simp only at hin
  split at hin
  · cases hin
  · obtain rfl := List.mem_singleton.mp hin
    exact ⟨hevents, rfl⟩

theorem writeStream_eq (held : Stream) (c : Commit) :
    writeStream held c = applyStream held c.toCrate := by
  unfold writeStream applyStream
  simp only [Commit.toCrate]
  cases hlast : c.events.getLast? with
  | none => rfl
  | some last =>
    have hmax : (if last.sequence < held.head then held.head else last.sequence) =
        max held.head last.sequence := by omega
    cases c.snapshot with
    | none => simp only [hmax]
    | some new => simp only [hmax]

/-- The streams a transaction writes are the ones the crate's repository would write. -/
theorem MemRepository.writeStreams_eq {writes : List Commit} (h : ∀ c ∈ writes, c.events ≠ [])
    (streams : OrdMap EntityId Stream) :
    writeStreams streams writes = applyStreams streams (writes.map Commit.toCrate) := by
  induction writes generalizing streams with
  | nil => rfl
  | cons c writes ih =>
    have hc : c.events.isEmpty = false := by simpa using h c List.mem_cons_self
    have hrest := ih (fun d hd => h d (List.mem_cons_of_mem _ hd))
    simp only [writeStreams, applyStreams, List.map_cons, List.foldl_cons] at hrest ⊢
    rw [hrest, writeStream_eq]
    simp only [Commit.toCrate, hc, Bool.false_eq_true, if_false]

theorem rankFailures_eq_none {failures : List Error} :
    rankFailures failures = none ↔ failures = [] := by
  cases failures with
  | nil => simp [rankFailures]
  | cons failure failures => simp [rankFailures]

theorem first_of_checkWrite {held : Stream} {log : List SerializedEvent} (h : held.Holds log)
    (hv : c.toCrate.Valid) (hpass : checkWrite c held = none) {first : SerializedEvent}
    (hfirst : c.events.head? = some first) : first.sequence = log.length + 1 := by
  have hpos := hv.positive first hfirst
  have hhead := h.head
  unfold checkWrite at hpass
  cases hevents : c.events with
  | nil => simp [hevents] at hfirst
  | cons e events =>
    obtain rfl : e = first := by simpa [hevents] using hfirst
    simp only [hevents] at hpass
    split at hpass
    · cases hpass
    · rename_i hnot
      simp only [Stream.headPasses, Bool.not_eq_true', Bool.not_eq_false] at hnot
      split at hnot <;> rw [beq_iff_eq] at hnot <;> omega

namespace MemRepository

variable {E : Env} {r r' : MemRepository} {t : NormalizedTransaction}

theorem checkManifest_ok (h : r.checkManifest = .ok r') :
    r' = { r with manifest := r'.manifest } := by
  obtain ⟨-, h⟩ := seq_eq_ok.mp h
  split at h
  · cases h
    rfl
  · obtain ⟨-, h⟩ := seq_eq_ok.mp h
    cases h
    rfl

/-- A transaction applies, each stream's commit accepted, or changes the manifest at most. -/
theorem write_cases (E : Env) (r : MemRepository) (t : NormalizedTransaction) :
    (∃ manifest, (r.write E t).2 = { r with manifest }) ∧ (r.write E t).1 ≠ .ok () ∨
      (r.write E t).1 = .ok () ∧
        (r.write E t).2.streams = writeStreams r.streams t.streams ∧
        ∀ c ∈ t.streams, checkWrite c (r.held c.entityId) = none := by
  unfold write
  split
  · exact .inl ⟨⟨r.manifest, rfl⟩, by simp⟩
  · split
    · exact .inl ⟨⟨r.manifest, rfl⟩, by simp⟩
    · rename_i marked hmarked
      have hkeep := checkManifest_ok hmarked
      split
      · exact .inl ⟨⟨marked.manifest, hkeep⟩, by simp⟩
      · rename_i hchecks
        refine .inr ⟨rfl, by rw [hkeep], fun c hc => ?_⟩
        simp only [checkTransaction, seq_eq_ok] at hchecks
        obtain ⟨-, -, -, hfailures⟩ := hchecks
        have hnone : rankFailures (marked.failures t) = none := by
          unfold checkFailures at hfailures
          split at hfailures
          · cases hfailures
          · assumption
        have hnil := rankFailures_eq_none.mp hnone
        rw [failures, List.append_eq_nil_iff, List.filterMap_eq_nil_iff] at hnil
        have := hnil.1 c hc
        rwa [hkeep] at this

/-- A stream after a transaction that applied: extended by its own commit, or as it was. -/
theorem held_write (hnormal : t.Normal)
    (hstreams : r'.streams = writeStreams r.streams t.streams) (entityId : EntityId) :
    (∃ c ∈ t.streams, c.entityId = entityId ∧
        r'.held entityId = applyStream (r.held entityId) c.toCrate) ∨
      (∀ c ∈ t.streams, c.entityId ≠ entityId) ∧ r'.held entityId = r.held entityId := by
  have hsorted : (t.streams.map Commit.toCrate).Pairwise fun a b => a.entityId < b.entityId :=
    List.pairwise_map.mpr hnormal.sorted
  have hget := get_applyStreams hsorted r.streams entityId
  rw [← writeStreams_eq hnormal.written, ← hstreams] at hget
  cases hwriter : writerOf (t.streams.map Commit.toCrate) entityId with
  | none =>
    rw [hwriter] at hget
    refine .inr ⟨fun c hc heq => ?_, by rw [held, hget]; rfl⟩
    exact hnormal.written c hc
      (writerOf_eq_none.mp hwriter c.toCrate (List.mem_map_of_mem hc) heq)
  | some crate =>
    rw [hwriter] at hget
    obtain ⟨hmem, -, hid⟩ := writerOf_eq_some hwriter
    obtain ⟨c, hc, rfl⟩ := List.mem_map.mp hmem
    exact .inl ⟨c, hc, hid, by rw [held, hget]; rfl⟩

theorem putSnapshot_cases (r : MemRepository) (snapshot : SerializedSnapshot) :
    (∃ manifest, (r.putSnapshot snapshot).2 = { r with manifest }) ∨
      ∃ manifest, (r.putSnapshot snapshot).2 = { r with
          manifest
          streams := r.streams.insert snapshot.entityId
            { r.held snapshot.entityId with snapshot := some snapshot } } ∧
        ¬(0 < snapshot.eventSequence ∧
          (r.held snapshot.entityId).head < snapshot.eventSequence) ∧
        ∀ stored, (r.held snapshot.entityId).snapshot = some stored →
          stored.eventSequence ≤ snapshot.eventSequence := by
  unfold putSnapshot
  split
  · exact .inl ⟨r.manifest, rfl⟩
  · rename_i marked hmarked
    have hmarked : r.checkManifest = .ok marked := by
      simp only [seq_eq_ok] at hmarked
      exact hmarked.2.2.2
    have hkeep := checkManifest_ok hmarked
    split
    · exact .inl ⟨marked.manifest, hkeep⟩
    · exact .inl ⟨marked.manifest, hkeep⟩
    · rename_i hput
      refine .inr ⟨marked.manifest, ?_, ?_⟩
      · rw [hkeep]
        rfl
      · rw [hkeep] at hput
        unfold checkPutSnapshot at hput
        simp only at hput
        split at hput
        · cases hput
        · rename_i hhead
          refine ⟨hhead, fun stored hstored => ?_⟩
          change Except.ok (!(r.held snapshot.entityId).snapshot.any _) = _ at hput
          rw [hstored] at hput
          simpa using hput

theorem compactBelow_cases (r : MemRepository) (entityId : EntityId) (through : Int) :
    (r.compactBelow entityId through).2 = r ∨
      ∃ stream snapshot, r.streams[entityId]? = some stream ∧
        stream.snapshot = some snapshot ∧ through ≤ snapshot.eventSequence ∧
        (r.compactBelow entityId through).2 = { r with
          streams := r.streams.insert entityId
            { stream with events := stream.events.filter fun k _ => through < k } } := by
  unfold compactBelow
  split
  · exact .inl rfl
  · split
    · exact .inl rfl
    · split
      · exact .inl rfl
      · rename_i stream hstream
        refine .inr ?_
        obtain ⟨-, hstream⟩ := seq_eq_ok.mp hstream
        split at hstream
        · rename_i stream' snapshot hget hsnapshot
          simp only [seq_eq_ok, refuse_eq_ok] at hstream
          obtain ⟨hcovered, -, hstream⟩ := hstream
          cases hstream
          rw [hget, Option.bind_some] at hsnapshot
          exact ⟨stream, snapshot, hget, hsnapshot, by omega, rfl⟩
        · cases hstream

end MemRepository

end EventStore.TypeScript
