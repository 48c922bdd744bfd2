import EventStore.Core.DynamoStreams
import EventStore.Lib.Result
import Mathlib.Logic.Relation

/-!
The probe of a stream whose head update failed, read by read, while writes go on. The head is
never behind what was derived before it was read; a snapshot and a compaction between the last two
reads take the evidence of a higher head away from both.
-/
namespace EventStore.DynamoStream

/-- The stream with its highest committed sequence, and the compactions under way. -/
structure Log where
  items : Items := {}
  highest : Int := 0
  compacting : List Int := []

inductive Log.Writes : Log → Log → Prop
  | commits {l : Log} {items : Items} (c : Commit) (h : l.items.commit c = some items) :
      Writes l { l with items, highest := c.last }
  | puts {l : Log} {items : Items} (item : SnapshotItem)
      (h : l.items.putSnapshot (.snapshotGuard item.eventSeq item.ttl) item = some items) :
      Writes l { l with items }
  | checks {l : Log} (through : Int) (hthrough : 1 ≤ through)
      (h : l.items.snapshot.any fun item => through ≤ item.eventSeq) :
      Writes l { l with compacting := through :: l.compacting }
  | deletes {l : Log} (sequence through : Int) (h : through ∈ l.compacting)
      (hle : sequence ≤ through) :
      Writes l { l with items := l.items.delete sequence }

/-- A log with a probe of it under way, by a repository that does not expire the stream's type. -/
inductive Log.Step : Log × Probing → Log × Probing → Prop
  | writes {l l' : Log} {p : Probing} (h : l.Writes l') : Step (l, p) (l', p)
  | reads (l : Log) (p : Probing) : Step (l, p) (l, p.next false false l.items)

variable {l l' : Log}

section Healthy

variable {s : Items} {n : Int}

theorem Items.highestEvent_le_iff (hn : 0 ≤ n) :
    s.highestEvent ≤ n ↔ ∀ event ∈ s.events, event.sequence ≤ n := by
  simp only [highestEvent, Ranking.foldl_max_le_iff, List.mem_filter, List.mem_map,
    decide_eq_true_eq]
  refine ⟨fun h event hevent => ?_, fun h => ⟨hn, ?_⟩⟩
  · by_cases hpos : 0 < event.sequence
    · exact h.2 _ ⟨⟨event, hevent, rfl⟩, hpos⟩
    · exact (not_lt.mp hpos).trans hn
  · rintro _ ⟨⟨event, hevent, rfl⟩, -⟩
    exact h event hevent

theorem Items.le_highestEvent (h : n ∈ s.events.map (·.sequence)) : n ≤ s.highestEvent := by
  obtain ⟨event, hevent, rfl⟩ := List.mem_map.mp h
  have hzero : 0 ≤ s.highestEvent := (Ranking.foldl_max_le_iff.mp le_rfl).1
  exact (highestEvent_le_iff hzero).mp le_rfl event hevent

/-- The stored head is the highest sequence committed, and is stored or covered. -/
structure Log.Healthy (l : Log) : Prop where
  head : l.items.storedHead = l.highest
  nonnegative : 0 ≤ l.highest
  events : ∀ event ∈ l.items.events, event.sequence ≤ l.highest
  snapshot : l.items.coveredSequence ≤ l.highest
  evidence : l.highest ∈ l.items.events.map (·.sequence) ∨ l.highest ≤ max 0 l.items.coveredSequence
  compacting : ∀ through ∈ l.compacting, ∃ item ∈ l.items.snapshot, through ≤ item.eventSeq

variable {c : Commit}

/-- A commit whose head condition holds begins above the stored head. -/
theorem Commit.storedHead_lt (h : c.headUpdate.passes s.head = true) : s.storedHead < c.first := by
  have hvalid := c.valid
  cases hhead : s.head with
  | none => simpa [Items.storedHead, hhead] using Int.lt_of_lt_of_le Int.zero_lt_one hvalid.1
  | some item =>
    simp only [headUpdate, HeadAction.passes, hhead, Option.isNone_some, Option.any_some] at h
    split at h
    · cases h
    · simp only [Bool.and_eq_true, decide_eq_true_eq] at h
      simp only [Items.storedHead, hhead, Option.map_some, Option.getD_some]
      omega

theorem Commit.mem_sequences : n ∈ c.sequences ↔ c.first ≤ n ∧ n ≤ c.last := by
  have hvalid := c.valid
  simp only [sequences, List.mem_map, List.mem_range]
  refine ⟨fun ⟨i, hi, h⟩ => by omega, fun h => ⟨(n - c.first).toNat, by omega, by omega⟩⟩

variable {items : Items}

theorem Items.commit_eq_some (h : s.commit c = some items) :
    c.headUpdate.passes s.head = true ∧ items.storedHead = c.last ∧
      items.events = s.events ++ c.sequences.map (fun n => ⟨n, itemTtl c.ttl⟩) ∧
      (items.snapshot = s.snapshot ∨ ∃ item ∈ items.snapshot, item.eventSeq = c.last) := by
  unfold commit at h
  split at h
  · rename_i hpasses
    simp only [Bool.and_eq_true] at hpasses
    cases h
    refine ⟨hpasses.1.1, rfl, rfl, ?_⟩
    cases hsnapshot : c.snapshot with
    | none => exact .inl rfl
    | some sequence => exact .inr ⟨_, rfl, rfl⟩
  · cases h

theorem Log.Healthy.commits (h : l.Healthy) (hcommit : l.items.commit c = some items) :
    Healthy { l with items, highest := c.last } ∧ c.last ∈ items.events.map (·.sequence) ∧
      l.highest < c.last := by
  obtain ⟨hpasses, hhead, hevents, hsnapshot⟩ := Items.commit_eq_some hcommit
  have hvalid := c.valid
  have hlt : l.highest < c.last := by
    have hfirst := Commit.storedHead_lt hpasses
    rw [h.head] at hfirst
    omega
  have hmem : c.last ∈ items.events.map (·.sequence) := by
    rw [hevents, List.map_append, List.mem_append, List.map_map]
    exact .inr (List.mem_map.mpr ⟨c.last, Commit.mem_sequences.mpr ⟨hvalid.2, le_rfl⟩, rfl⟩)
  refine ⟨⟨hhead, h.nonnegative.trans hlt.le, ?_, ?_, .inl hmem, fun through hthrough => ?_⟩,
    hmem, hlt⟩
  · intro event hevent
    rw [hevents] at hevent
    rcases List.mem_append.mp hevent with hold | hnew
    · exact (h.events event hold).trans hlt.le
    · obtain ⟨n, hn, rfl⟩ := List.mem_map.mp hnew
      exact (Commit.mem_sequences.mp hn).2
  · rcases hsnapshot with hsame | ⟨item, hitem, heq⟩
    · simpa [Items.coveredSequence, hsame] using h.snapshot.trans hlt.le
    · simp [Items.coveredSequence, Option.mem_def.mp hitem, heq]
  · obtain ⟨old, hold, hle⟩ := h.compacting through hthrough
    rcases hsnapshot with hsame | ⟨item, hitem, heq⟩
    · exact ⟨old, hsame ▸ hold, hle⟩
    · have hcovered := h.snapshot
      rw [Items.coveredSequence, Option.mem_def.mp hold] at hcovered
      exact ⟨item, hitem, by simp only [Option.map_some, Option.getD_some] at hcovered; omega⟩

/-- The guard of a snapshot write leaves the head as it is, and passes when the head covers the
snapshot. -/
theorem HeadAction.snapshotGuard_passes {new : Int} {ttl : Option Int} {head : Option HeadItem}
    (h : (snapshotGuard new ttl).passes head = true) :
    ((snapshotGuard new ttl).apply head).map (·.head) = head.map (·.head) ∧
      (new ≤ 0 ∨ new ≤ (head.map (·.head)).getD 0) := by
  by_cases hpos : 0 < new
  · cases head <;> cases ttl <;> simp_all [snapshotGuard, passes, apply]
  · cases ttl <;> simp [snapshotGuard, hpos, apply, not_lt.mp hpos]

theorem Log.Healthy.puts (h : l.Healthy) {item : SnapshotItem}
    (hput : l.items.putSnapshot (.snapshotGuard item.eventSeq item.ttl) item = some items) :
    Healthy { l with items } := by
  unfold Items.putSnapshot at hput
  split at hput
  · rename_i hpasses
    simp only [Bool.and_eq_true] at hpasses
    obtain ⟨hhead, hle⟩ := HeadAction.snapshotGuard_passes hpasses.1
    have hcovered : item.eventSeq ≤ l.highest := by
      rcases hle with hle | hle
      · exact hle.trans h.nonnegative
      · exact h.head ▸ hle
    have hrises : ∀ old ∈ l.items.snapshot, old.eventSeq ≤ item.eventSeq := fun old hold => by
      simpa [Option.mem_def.mp hold] using hpasses.2
    cases hput
    refine ⟨(congrArg (Option.getD · 0) hhead).trans h.head, h.nonnegative, h.events, hcovered, ?_,
      fun through hthrough => ?_⟩
    · refine h.evidence.imp_right fun hsnapshot => hsnapshot.trans ?_
      cases hold : l.items.snapshot with
      | none => simp [Items.coveredSequence, hold]
      | some old =>
        simp only [Items.coveredSequence, hold, Option.map_some, Option.getD_some]
        exact max_le_max_left 0 (hrises old hold)
    · obtain ⟨old, hold, hcovers⟩ := h.compacting through hthrough
      exact ⟨_, rfl, hcovers.trans (hrises old hold)⟩
  · cases hput

theorem Log.Healthy.deletes (h : l.Healthy) {sequence through : Int}
    (hthrough : through ∈ l.compacting) (hle : sequence ≤ through) :
    Healthy { l with items := l.items.delete sequence } := by
  obtain ⟨item, hitem, hcovers⟩ := h.compacting through hthrough
  refine ⟨h.head, h.nonnegative, fun event hevent => h.events event (List.mem_of_mem_filter hevent),
    h.snapshot, ?_, h.compacting⟩
  rcases h.evidence with hevent | hsnapshot
  · obtain ⟨event, hmem, heq⟩ := List.mem_map.mp hevent
    by_cases hdeleted : event.sequence = sequence
    · right
      simp only [Items.delete, Items.coveredSequence, Option.mem_def.mp hitem, Option.map_some,
        Option.getD_some]
      omega
    · refine .inl (List.mem_map.mpr ⟨event, List.mem_filter.mpr ⟨hmem, ?_⟩, heq⟩)
      simpa using hdeleted
  · exact .inr hsnapshot

/-- Writers keep a log healthy, and its highest sequence never falls; where it rises, it is an
event's. -/
theorem Log.Writes.healthy (hw : l.Writes l') (h : l.Healthy) :
    l'.Healthy ∧ l.highest ≤ l'.highest ∧
      (l'.highest = l.highest ∨ l'.highest ∈ l'.items.events.map (·.sequence)) := by
  cases hw with
  | commits c hcommit =>
    obtain ⟨hhealthy, hmem, hlt⟩ := h.commits hcommit
    exact ⟨hhealthy, hlt.le, .inr hmem⟩
  | puts item hput => exact ⟨h.puts hput, le_rfl, .inl rfl⟩
  | checks through hthrough hcovers =>
    refine ⟨{ h with compacting := List.forall_mem_cons.mpr ⟨?_, h.compacting⟩ }, le_rfl, .inl rfl⟩
    cases hitem : l.items.snapshot with
    | none => simp [hitem] at hcovers
    | some item => exact ⟨item, rfl, by simpa [hitem] using hcovers⟩
  | deletes sequence through hthrough hle => exact ⟨h.deletes hthrough hle, le_rfl, .inl rfl⟩

end Healthy

section Probes

def Probing.Sound (l : Log) : Probing → Prop
  | .start => True
  | .covered c => c ≤ l.highest
  | .derived d => d ≤ l.highest
  | .ahead stored => stored ≤ l.highest
  | .recovered stored c => stored ≤ max 0 c ∨
      (stored ≤ l.highest ∧ l.highest ∈ l.items.events.map (·.sequence))
  | .remaining _ _ => False
  | .done verdict => ∀ stored derived, verdict ≠ .drift stored derived

/-- Between the last two reads the highest event is not deleted, unless the snapshot read covers it.
-/
def Log.Spares (w w' : Log × Probing) : Prop :=
  ∀ stored c, w.2 = .recovered stored c → w.1.highest ≤ c ∨
    (w.1.highest ∈ w.1.items.events.map (·.sequence) →
      w.1.highest ∈ w'.1.items.events.map (·.sequence))

variable {p : Probing}

theorem Probing.Sound.reads (h : l.Healthy) (hp : p.Sound l) :
    (p.next false false l.items).Sound l := by
  have hevents : l.items.highestEvent ≤ l.highest :=
    (Items.highestEvent_le_iff h.nonnegative).mpr h.events
  cases p with
  | start => exact h.snapshot
  | covered c => exact max_le hevents hp
  | derived d =>
    have hd : d ≤ l.items.storedHead := h.head ▸ hp
    by_cases heq : l.items.storedHead = d
    · simp [next, Probe.first, heq, Sound]
    · simpa [next, Probe.first, heq, not_lt.mpr hd, Sound] using h.head.le
  | ahead stored =>
    rcases h.evidence with hevent | hsnapshot
    · exact .inr ⟨hp, hevent⟩
    · exact .inl (hp.trans hsnapshot)
  | recovered stored c =>
    have hzero : 0 ≤ l.items.highestEvent := (Ranking.foldl_max_le_iff.mp le_rfl).1
    have hle : stored ≤ max l.items.highestEvent c := by
      rcases hp with hcovered | ⟨hle, hevent⟩
      · exact hcovered.trans (max_le_max_right c hzero)
      · exact (hle.trans (Items.le_highestEvent hevent)).trans (le_max_left _ _)
    simp [next, Probe.afterRederive, not_lt.mpr hle, Sound]
  | remaining stored d => exact hp.elim
  | done verdict => exact hp

theorem Probing.Sound.writes (h : l.Healthy) (hw : l.Writes l') (hp : p.Sound l)
    (hspares : Log.Spares (l, p) (l', p)) : p.Sound l' := by
  obtain ⟨-, hle, hrise⟩ := hw.healthy h
  cases p with
  | start => trivial
  | covered c => exact hp.trans hle
  | derived d => exact hp.trans hle
  | ahead stored => exact hp.trans hle
  | recovered stored c =>
    rcases hp with hcovered | ⟨hstored, hevent⟩
    · exact .inl hcovered
    · rcases hspares stored c rfl with hcovers | hkept
      · exact .inl ((hstored.trans hcovers).trans (le_max_right _ _))
      · refine .inr ⟨hstored.trans hle, hrise.elim (fun heq => heq ▸ hkept hevent) id⟩
  | remaining stored d => exact hp.elim
  | done verdict => exact hp

theorem Log.healthy_of_run (h : l.Healthy)
    (hrun : Relation.ReflTransGen (fun w w' => Step w w' ∧ Spares w w') (l, .start) (l', p)) :
    l'.Healthy ∧ p.Sound l' := by
  generalize hw : (l', p) = w at hrun
  induction hrun generalizing l' p with
  | refl =>
    cases hw
    exact ⟨h, trivial⟩
  | tail _ hstep ih =>
    cases hw
    obtain ⟨hstep, hspares⟩ := hstep
    cases hstep with
    | writes hwrites =>
      obtain ⟨hhealthy, hsound⟩ := ih rfl
      exact ⟨(hwrites.healthy hhealthy).1, hsound.writes hhealthy hwrites hspares⟩
    | reads _ q =>
      obtain ⟨hhealthy, hsound⟩ := ih rfl
      exact ⟨hhealthy, hsound.reads hhealthy⟩

/-- A healthy stream is not called drifted, unless its highest event is deleted between the last two
reads; a drifted one without writes always is. -/
theorem probe_blames_drift (l : Log) :
    (l.Healthy → ∀ (l' : Log) (p : Probing),
      Relation.ReflTransGen (fun w w' => Log.Step w w' ∧ Log.Spares w w') (l, .start) (l', p) →
        l'.items.storedHead = l'.highest ∧ ∀ stored derived, p ≠ .done (.drift stored derived)) ∧
      (l.Healthy → ∀ c : Commit, c.headUpdate.passes l.items.head = true →
        ∀ n ∈ c.sequences, n ∉ l.items.events.map (·.sequence)) ∧
      (l.items.storedHead ≠ l.items.derivedHead →
        (Probing.next false false l.items)^[5] .start =
          .done (.drift l.items.storedHead l.items.derivedHead)) := by
  refine ⟨fun h l' p hrun => ?_, fun h c hpasses n hn hmem => ?_, ?_⟩
  · obtain ⟨hhealthy, hsound⟩ := Log.healthy_of_run h hrun
    refine ⟨hhealthy.head, fun stored derived heq => ?_⟩
    rw [heq] at hsound
    exact hsound stored derived rfl
  · obtain ⟨event, hevent, rfl⟩ := List.mem_map.mp hmem
    have hlt := Commit.storedHead_lt hpasses
    rw [h.head] at hlt
    exact absurd (h.events event hevent)
      (not_le.mpr (hlt.trans_le (Commit.mem_sequences.mp hn).1))
  · generalize l.items = s
    intro hs
    have hderived : max s.highestEvent s.coveredSequence = s.derivedHead := rfl
    simp only [Function.iterate_succ, Function.iterate_zero, Function.comp_apply, id_eq,
      Probing.next, hderived]
    rcases lt_or_gt_of_ne hs with hlt | hgt
    · by_cases hpos : 0 < s.storedHead <;>
        simp [Probe.first, hlt, hpos, Probing.afterDrift]
    · simp [Probe.first, Probe.afterRederive, not_lt.mpr hgt.le, hs, hgt, Probing.afterDrift,
        hderived]

def logOf (head : Int) (snapshot : Option Int) (events compacting : List Int) : Log :=
  ⟨⟨some ⟨head, none⟩, snapshot.map fun eventSeq => ⟨1, eventSeq, none⟩, events.map (⟨·, none⟩)⟩,
    head, compacting⟩

/-- A commit lands before the probe reads the head, so the probe derives it once more. -/
theorem reaches_recovered :
    Relation.ReflTransGen (fun w w' => Log.Step w w' ∧ Log.Spares w w') ({}, .start)
      (logOf 2 none [1, 2] [], .recovered 2 0) := by
  have hspares : ∀ {l : Log} {p : Probing} {w : Log × Probing},
      (∀ stored c, p ≠ .recovered stored c) → Log.Spares (l, p) w :=
    fun h stored c heq => absurd heq (h stored c)
  have hcommit : Log.Step ({}, .start) (logOf 1 none [1] [], .start) :=
    .writes (.commits ⟨1, 1, by decide, none, none, none⟩ rfl)
  have hcovered : Log.Step (logOf 1 none [1] [], .start) (logOf 1 none [1] [], .covered 0) :=
    .reads _ _
  have hderived : Log.Step (logOf 1 none [1] [], .covered 0) (logOf 1 none [1] [], .derived 1) :=
    .reads _ _
  have hlands : Log.Step (logOf 1 none [1] [], .derived 1) (logOf 2 none [1, 2] [], .derived 1) :=
    .writes (.commits ⟨2, 2, by decide, none, none, none⟩ rfl)
  have hahead : Log.Step (logOf 2 none [1, 2] [], .derived 1) (logOf 2 none [1, 2] [], .ahead 2) :=
    .reads _ _
  have hrecovered : Log.Step (logOf 2 none [1, 2] [], .ahead 2)
      (logOf 2 none [1, 2] [], .recovered 2 0) := .reads _ _
  exact .head ⟨hcommit, hspares (by simp)⟩ (.head ⟨hcovered, hspares (by simp)⟩
    (.head ⟨hderived, hspares (by simp)⟩ (.head ⟨hlands, hspares (by simp)⟩
      (.head ⟨hahead, hspares (by simp)⟩ (.single ⟨hrecovered, hspares (by simp)⟩)))))

theorem healthy_empty : Log.Healthy {} :=
  ⟨rfl, le_rfl, List.forall_mem_nil _, le_rfl, .inr le_rfl, List.forall_mem_nil _⟩

/-- With no deletion before its last read, that probe ends in a conflict. -/
theorem rederived_head_settles :
    Relation.ReflTransGen (fun w w' => Log.Step w w' ∧ Log.Spares w w') ({}, .start)
        (logOf 2 none [1, 2] [], .done .conflict) ∧
      (logOf 2 none [1, 2] []).items.storedHead = 2 ∧
      ∀ stored derived, Probing.done .conflict ≠ .done (.drift stored derived) := by
  have hreads : Log.Step (logOf 2 none [1, 2] [], .recovered 2 0)
      (logOf 2 none [1, 2] [], .done .conflict) := .reads _ _
  have hrun := reaches_recovered.tail ⟨hreads, fun _ _ _ => .inr id⟩
  exact ⟨hrun, (probe_blames_drift {}).1 healthy_empty _ _ hrun⟩

/-- A commit, a snapshot and a compaction land between the probe's reads. -/
theorem healthy_stream_blamed :
    Relation.ReflTransGen Log.Step ({}, .start) (logOf 2 (some 2) [] [2], .done (.drift 2 0)) ∧
      Log.Healthy {} ∧ (logOf 2 (some 2) [] [2]).items.derivedHead = 2 := by
  have hrecovered : Relation.ReflTransGen Log.Step ({}, .start)
      (logOf 2 none [1, 2] [], .recovered 2 0) := reaches_recovered.lift id fun _ _ h => h.1
  have hsnapshot : Log.Step (logOf 2 none [1, 2] [], .recovered 2 0)
      (logOf 2 (some 2) [1, 2] [], .recovered 2 0) := .writes (.puts ⟨1, 2, none⟩ rfl)
  have hchecks : Log.Step (logOf 2 (some 2) [1, 2] [], .recovered 2 0)
      (logOf 2 (some 2) [1, 2] [2], .recovered 2 0) := .writes (.checks 2 (by decide) rfl)
  have hfirst : Log.Step (logOf 2 (some 2) [1, 2] [2], .recovered 2 0)
      (logOf 2 (some 2) [2] [2], .recovered 2 0) :=
    .writes (.deletes 1 2 List.mem_cons_self (by decide))
  have hsecond : Log.Step (logOf 2 (some 2) [2] [2], .recovered 2 0)
      (logOf 2 (some 2) [] [2], .recovered 2 0) :=
    .writes (.deletes 2 2 List.mem_cons_self (by decide))
  have hblamed : Log.Step (logOf 2 (some 2) [] [2], .recovered 2 0)
      (logOf 2 (some 2) [] [2], .done (.drift 2 0)) := .reads _ _
  refine ⟨hrecovered.trans ?_, healthy_empty, rfl⟩
  exact .head hsnapshot (.head hchecks (.head hfirst (.head hsecond (.single hblamed))))

end Probes

end EventStore.DynamoStream
