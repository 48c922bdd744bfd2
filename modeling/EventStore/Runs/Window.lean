import EventStore.Runs.Operations

/-!
The window in which a command ID is caught. A load has seen the command IDs of all events that no
snapshot covers, and a commit is admitted only right after the log its load saw.
-/
namespace EventStore

open Result Program

/-- The command IDs of the log's events up to a sequence are among those seen, but for
covered events. -/
structure Watched (log : List SerializedEvent) (covered : Int → Prop) (sequence : Int)
    (seen : List CommandId) : Prop where
  nonneg : 0 ≤ sequence
  within : sequence ≤ log.length
  seen : ∀ event ∈ log.take sequence.toNat, ∀ commandId, commandId ≠ "" →
    event.metadata.commandId = some commandId → commandId ∈ seen ∨ covered event.sequence

variable {commandId : CommandId} {entityId : EntityId}

section Watched

variable {log log' : List SerializedEvent} {covered covered' : Int → Prop} {sequence : Int}
  {seen : List CommandId}

theorem Watched.mono (h : Watched log covered sequence seen) (hlog : log <+: log')
    (hcovered : ∀ k, covered k → covered' k) : Watched log' covered' sequence seen := by
  have := h.nonneg
  have := h.within
  have := hlog.length_le
  refine ⟨h.nonneg, by omega, fun event hevent commandId hne hid => ?_⟩
  rw [take_prefix_eq hlog (by omega)] at hevent
  exact (h.seen event hevent commandId hne hid).imp_right (hcovered _)

theorem mem_insertSeen_self (hne : commandId ≠ "") (seen : List CommandId) :
    commandId ∈ Loaded.insertSeen seen (some commandId) := by
  simp [Loaded.insertSeen, Option.filter, hne]

theorem mem_insertSeen_of_mem (h : commandId ∈ seen) (added : Option CommandId) :
    commandId ∈ Loaded.insertSeen seen added := by
  unfold Loaded.insertSeen
  split
  · exact h
  · exact List.mem_cons_of_mem _ h

variable {A : Aggregate}

theorem sequence_le_of_mem_take (hlog : Consecutive.From SerializedEvent.sequence 1 log) {n : Nat}
    {event : SerializedEvent} (h : event ∈ log.take n) : event.sequence ≤ n := by
  obtain ⟨k, hk, rfl⟩ := List.mem_iff_getElem.mp h
  rw [List.length_take] at hk
  have hnumber := Consecutive.number_of_getElem? hlog
    (List.getElem?_eq_getElem (show k < log.length by omega))
  rw [List.getElem_take]
  omega

theorem mem_take_of_sequence_le (hlog : Consecutive.From SerializedEvent.sequence 1 log) {n : Int}
    {event : SerializedEvent} (h : event ∈ log) (hle : event.sequence ≤ n) :
    event ∈ log.take n.toNat := by
  obtain ⟨k, hk, rfl⟩ := List.mem_iff_getElem.mp h
  have hnumber := Consecutive.number_of_getElem? hlog (List.getElem?_eq_getElem hk)
  exact List.mem_take_iff_getElem.mpr ⟨k, by omega, rfl⟩

theorem watched_start (hlog : Consecutive.From SerializedEvent.sequence 1 log)
    {found : Option SerializedSnapshot} {loaded : Loaded A}
    (hfound : ∀ snapshot, found = some snapshot → 0 ≤ snapshot.eventSequence ∧
      snapshot.eventSequence ≤ log.length ∧ ∀ k, k ≤ snapshot.eventSequence → covered k)
    (h : Loaded.start entityId found = .ok loaded) :
    loaded.entityId = entityId ∧ Watched log covered loaded.sequence loaded.seenCommandIds := by
  cases found with
  | none =>
    cases h
    exact ⟨rfl, le_rfl, Int.natCast_nonneg _, by simp [Loaded.new]⟩
  | some snapshot =>
    obtain ⟨hnonneg, hwithin, hcovered⟩ := hfound snapshot rfl
    simp only [Loaded.start] at h
    split at h <;> cases h
    refine ⟨rfl, hnonneg, hwithin, fun event hevent _ _ _ => .inr (hcovered _ ?_)⟩
    have hle := sequence_le_of_mem_take hlog hevent
    simp only at hle
    omega

/-- Replaying the rest of the log sees all of it. -/
theorem Watched.replayAll (hlog : Consecutive.From SerializedEvent.sequence 1 log)
    {loaded loaded' : Loaded A}
    (h : Watched log covered loaded.sequence loaded.seenCommandIds)
    (hreplay : loaded.replayAll (log.drop loaded.sequence.toNat) = .ok loaded') :
    Watched log covered loaded'.sequence loaded'.seenCommandIds ∧
      loaded'.sequence = log.length := by
  have hnonneg := h.nonneg
  have hwithin := h.within
  induction hrest : log.drop loaded.sequence.toNat generalizing loaded with
  | nil =>
    rw [hrest] at hreplay
    cases hreplay
    have := List.drop_eq_nil_iff.mp hrest
    exact ⟨h, by omega⟩
  | cons stored rest ih =>
    rw [hrest] at hreplay
    simp only [Loaded.replayAll, bind_eq_ok] at hreplay
    obtain ⟨next, hnext, hreplay⟩ := hreplay
    obtain ⟨-, typed, -, rfl⟩ := Loaded.replay_eq_ok.mp hnext
    obtain ⟨hlt, hnumber, htake, hdrop⟩ := Consecutive.of_drop_cons hlog hrest
    have hplace : stored.sequence.toNat = loaded.sequence.toNat + 1 := by omega
    have hwatched : Watched log covered stored.sequence
        (Loaded.insertSeen loaded.seenCommandIds stored.metadata.commandId) := by
      refine ⟨by omega, by omega, fun event hevent commandId hne hid => ?_⟩
      rw [hplace, htake] at hevent
      rcases List.mem_append.mp hevent with hevent | hevent
      · exact (h.seen event hevent commandId hne hid).imp_left (mem_insertSeen_of_mem · _)
      · obtain rfl : event = stored := by simpa using hevent
        rw [hid]
        exact .inl (mem_insertSeen_self hne _)
    have hdropped : log.drop (loaded.after stored typed).sequence.toNat = rest := by
      rw [Loaded.after, hplace, hdrop]
    exact ih hwatched (hdropped ▸ hreplay) hwatched.nonneg hwatched.within hdropped

end Watched

variable {c : Commit Empty}

section Conflicts

variable {stream : Stream} {log : List SerializedEvent}

variable {error : Error}

/-- A stream that holds its log refuses a commit with a conflict, never with drift. -/
theorem Stream.Holds.isConflict_of_streamFailure (h : stream.Holds log) (hv : c.Valid)
    (hfail : streamFailure stream c = some error) : error.isConflict = true := by
  unfold streamFailure at hfail
  split at hfail
  · cases hfail
  · rename_i first rest hevents
    split at hfail
    · rw [probe_eq, if_pos h.derivedHead_eq.symm] at hfail
      obtain rfl := Option.some.inj hfail
      unfold Heads.gapOrConflict
      split <;> rfl
    · rename_i hhead
      split at hfail
      · -- The head passed, so the events are above it, where nothing is stored.
        rename_i hpass
        have hfirst : c.events.head? = some first := by rw [hevents]; rfl
        have hpositive := hv.positive first hfirst
        have hat : first.sequence = stream.head + 1 := by
          simp only [headPasses, Bool.not_eq_true', Bool.not_eq_false] at hhead
          split at hhead <;> rw [beq_iff_eq] at hhead <;> omega
        obtain ⟨floor, -, -, -, hstored⟩ := h.stored
        have hfree : stream.eventsPass c.events = true := by
          simp only [eventsPass, List.all_eq_true]
          intro event hevent
          obtain ⟨k, hk, rfl⟩ := List.mem_iff_getElem.mp hevent
          have hnumber := Consecutive.number_of_getElem? (hv.consecutive first hfirst)
            (List.getElem?_eq_getElem hk)
          rw [OrdMap.contains_eq, hstored, if_neg (by omega)]
          rfl
        simp [hfree] at hpass
      · split at hfail
        · cases hfail
        · split at hfail <;> cases hfail
          rfl

theorem Stream.Holds.isConflict_of_fenceFailure (h : stream.Holds log) {fence : ReadFence}
    (hfail : fenceFailure stream fence = some error) : error.isConflict = true := by
  unfold fenceFailure at hfail
  split at hfail
  · rw [probe_eq, if_pos h.derivedHead_eq.symm] at hfail
    obtain rfl := Option.some.inj hfail
    rfl
  · cases hfail

/-- Stores whose streams hold their logs refuse the streams and fences of a write with a
conflict. -/
theorem isConflict_of_checkRanked {s : Stores} (h : ∀ entityId, ∃ log, (s.held entityId).Holds log)
    {streams : List (Commit Empty)} {fences : List ReadFence} (hv : ∀ c ∈ streams, c.Valid)
    (hfail : checkRanked s streams fences = .error error) : error.isConflict = true := by
  unfold checkRanked at hfail
  split at hfail
  · rename_i verdict hrank
    cases hfail
    obtain ⟨before, after, hverdicts, -⟩ := Heads.rank_eq_some.mp hrank
    have hmem : error ∈ failures s streams fences := by
      rw [hverdicts]
      simp
    rcases List.mem_append.mp hmem with hmem | hmem
    · obtain ⟨c, hc, hfailure⟩ := List.mem_filterMap.mp hmem
      obtain ⟨log, hholds⟩ := h c.entityId
      exact hholds.isConflict_of_streamFailure (hv c hc) hfailure
    · obtain ⟨fence, -, hfailure⟩ := List.mem_filterMap.mp hmem
      obtain ⟨log, hholds⟩ := h fence.entityId
      split at hfailure
      · cases hfailure
      · exact hholds.isConflict_of_fenceFailure hfailure
  · cases hfail

end Conflicts

def Write.judge (E : Env) (r : MemRepository) (w : Write) : Except Error Unit := do
  (r.checkManifest E).1
  w.checkRetention (r.checkManifest E).2.stores.manifest
  checkRebuild (r.checkManifest E).2.stores
  checkOutcomeRow (r.checkManifest E).2.stores w.outcome

def Request.judge (E : Env) (r : MemRepository) (q : Request) : Except Error Unit :=
  match q.plan E with
  | .error error => .error error
  | .ok none => .ok ()
  | .ok (some w) => w.judge E r

/-- A write with a stream that does not pass is refused with a conflict, unless a check
before refuses it. -/
theorem MemRepository.refused_of_streamFailure (E : Env) (r : MemRepository) {w : Write}
    (hsound : w.Sound) (hstreams : ∀ entityId, ∃ log, (r.stores.held entityId).Holds log)
    (hc : c ∈ w.streams) (hfails : streamFailure (r.stores.held c.entityId) c ≠ none) :
    ∃ error, (r.perform E w).1 = .error error ∧
      (error.isConflict = true ∨ w.judge E r = .error error) := by
  have hheld := (sameData_checkManifest E r).held
  rcases MemRepository.perform_cases E r w with ⟨error, hmarker, hperform⟩ |
    ⟨hmarker, error, hcheck, hperform⟩ | ⟨-, hcheck, -⟩
  · exact ⟨error, by rw [hperform], .inr (by simp [Write.judge, hmarker]; rfl)⟩
  · refine ⟨error, by rw [hperform], ?_⟩
    simp only [Write.check, checkWrite, seq_eq_error] at hcheck
    simp only [Write.judge, seq_eq_error]
    rcases hcheck with h | ⟨hretention, h | ⟨hrebuild, h | ⟨houtcome, h | ⟨hranked, -⟩⟩⟩⟩
    · exact .inr (.inr ⟨hmarker, .inl h⟩)
    · exact .inr (.inr ⟨hmarker, .inr ⟨hretention, .inl h⟩⟩)
    · exact .inr (.inr ⟨hmarker, .inr ⟨hretention, .inr ⟨hrebuild, h⟩⟩⟩)
    · refine .inl (isConflict_of_checkRanked (fun entityId => ?_) hsound.valid h)
      rw [hheld]
      exact hstreams entityId
    · refine absurd ((Write.failures_eq_nil.mp (Write.checkRanked_eq_ok.mp hranked)).1 c hc) ?_
      rw [hheld]
      exact hfails
  · refine absurd ((Write.check_eq_ok.mp hcheck).2.streams c hc) ?_
    rw [hheld]
    exact hfails

def Request.Writes (q : Request) (entityId : EntityId) (commandId : CommandId) : Prop :=
  ∃ c ∈ q.write.streams, c.entityId = entityId ∧
    ∃ event ∈ c.events, event.metadata.commandId = some commandId

variable {q : Request}

theorem Request.Writes.plan_ne_none {E : Env} (h : q.Writes entityId commandId) :
    q.plan E ≠ .ok none := by
  obtain ⟨c, hc, -, event, hevent, -⟩ := h
  intro hplan
  cases q with
  | commit written =>
    obtain rfl : c = written := by simpa [Request.write, Write.ofCommit] using hc
    simp only [Request.plan, seq_eq_ok] at hplan
    obtain ⟨-, hplan⟩ := hplan
    split at hplan
    · rename_i hempty
      simp only [Bool.and_eq_true, List.isEmpty_iff] at hempty
      simp [hempty.1] at hevent
    · simp only [seq_eq_ok] at hplan
      cases hplan.2
  | transaction t =>
    simp only [Request.plan, bind_eq_ok] at hplan
    obtain ⟨n, hn, hplan⟩ := hplan
    obtain ⟨rfl, -⟩ := TransactionCommit.normalize_ok hn
    split at hplan
    · rename_i hempty
      simp only [TransactionCommit.isEmpty, Bool.and_eq_true, List.isEmpty_iff] at hempty
      simp only [Request.write, Write.ofTransaction] at hc
      simp [hempty.1.1.1.1] at hc
    · simp only [seq_eq_ok] at hplan
      cases hplan.2

namespace World

variable {ι : Type}

/-- A stored snapshot of the stream covers the sequence. -/
def Covered (w : World ι) (entityId : EntityId) (sequence : Int) : Prop :=
  ∃ snapshot, (w.stores.held entityId).snapshot = some snapshot ∧
    sequence ≤ snapshot.eventSequence

/-- The command has written an event to the stream that no snapshot covers. -/
def Open (w : World ι) (entityId : EntityId) (commandId : CommandId) : Prop :=
  ∃ event ∈ w.log entityId, event.metadata.commandId = some commandId ∧
    ¬w.Covered entityId event.sequence

/-- A commit's events come after a part of the log where only covered events carry their commands.
-/
def Unrepeated (w : World ι) (c : Commit Empty) : Prop :=
  ∀ first, c.events.head? = some first →
    first.sequence ≤ (w.log c.entityId).length + 1 ∧
    ∀ event ∈ c.events, ∀ commandId, commandId ≠ "" →
      event.metadata.commandId = some commandId →
        ∀ earlier ∈ (w.log c.entityId).take (first.sequence - 1).toNat,
          earlier.metadata.commandId = some commandId → w.Covered c.entityId earlier.sequence

def RepeatsNone (w : World ι) (q : Request) : Prop := ∀ c ∈ q.write.streams, w.Unrepeated c

/-- No event of an open command is added. -/
def Refuses (w w' : World ι) : Prop :=
  ∀ entityId commandId, commandId ≠ "" → w.Open entityId commandId →
    ∀ event ∈ (w'.log entityId).drop (w.log entityId).length,
      event.metadata.commandId ≠ some commandId

structure Retains (w w' : World ι) : Prop where
  applied : w.applied <+: w'.applied
  covered : ∀ entityId sequence, w.Covered entityId sequence → w'.Covered entityId sequence

theorem Retains.refl (w : World ι) : Retains w w := ⟨List.prefix_rfl, fun _ _ h => h⟩

theorem Retains.trans {w w' w'' : World ι} (h : Retains w w') (h' : Retains w' w'') :
    Retains w w'' :=
  ⟨h.applied.trans h'.applied, fun _ _ hc => h'.covered _ _ (h.covered _ _ hc)⟩

theorem Retains.log {w w' : World ι} (h : Retains w w') (entityId : EntityId) :
    w.log entityId <+: w'.log entityId :=
  logOf_mono h.applied entityId

theorem RepeatsNone.mono {w w' : World ι} (h : w.RepeatsNone q) (hw : Retains w w') :
    w'.RepeatsNone q := by
  intro c hc first hfirst
  obtain ⟨hwithin, hrepeats⟩ := h c hc first hfirst
  have hlog := hw.log c.entityId
  have := hlog.length_le
  refine ⟨by omega, fun event hevent commandId hne hid earlier hearlier hrepeat => ?_⟩
  rw [take_prefix_eq hlog (by omega)] at hearlier
  exact hw.covered _ _ (hrepeats event hevent commandId hne hid earlier hearlier hrepeat)

/-- The streams hold their logs, and what is in flight repeats no open command. -/
structure Windowed (w : World ι) : Prop where
  sound : w.history.Sound
  nonneg : ∀ entityId snapshot, (w.stores.held entityId).snapshot = some snapshot →
    0 ≤ snapshot.eventSequence
  inFlight : ∀ f ∈ w.inFlight, w.RepeatsNone f.request

/-- Events that follow what was watched, with command IDs that were not seen. -/
theorem unrepeated_of_watched {w : World ι} {sequence : Int} {seen : List CommandId}
    (h : Watched (w.log c.entityId) (w.Covered c.entityId) sequence seen)
    (hnumbered : Consecutive.From SerializedEvent.sequence (sequence + 1) c.events)
    (hunseen : ∀ event ∈ c.events, ∀ commandId, commandId ≠ "" →
      event.metadata.commandId = some commandId → commandId ∉ seen) : w.Unrepeated c := by
  intro first hfirst
  have hplace : first.sequence = sequence + 1 := by
    cases hevents : c.events with
    | nil => simp [hevents] at hfirst
    | cons event events =>
      rw [hevents] at hfirst hnumbered
      cases hfirst
      exact hnumbered.1
  have hwithin := h.within
  refine ⟨by omega, fun event hevent commandId hne hid earlier hearlier hrepeat => ?_⟩
  rw [hplace, add_sub_cancel_right] at hearlier
  exact (h.seen earlier hearlier commandId hne hrepeat).resolve_left
    (hunseen event hevent commandId hne hid)

/-- A commit that would repeat an open command does not pass its stream's checks. -/
theorem streamFailure_of_open {w : World ι} (hw : w.history.Sound) (hv : c.Valid)
    (h : w.Unrepeated c) {event : SerializedEvent} (hevent : event ∈ c.events)
    (hne : commandId ≠ "") (hid : event.metadata.commandId = some commandId)
    (hopen : w.Open c.entityId commandId) : streamFailure (w.stores.held c.entityId) c ≠ none := by
  intro hpass
  obtain ⟨earlier, hearlier, hrepeat, huncovered⟩ := hopen
  have hevents : c.events ≠ [] := List.ne_nil_of_mem hevent
  obtain ⟨first, hfirst⟩ : ∃ first, c.events.head? = some first :=
    ⟨_, List.head?_eq_some_head hevents⟩
  have hholds : (w.stores.held c.entityId).Holds (w.log c.entityId) := hw c.entityId
  have hplace := Stream.first_of_passes hholds hfirst (hv.positive first hfirst) hpass
  obtain ⟨-, hrepeats⟩ := h first hfirst
  -- The commit would be admitted, so the log before its events is the whole log.
  rw [List.take_of_length_le (by omega)] at hrepeats
  exact huncovered (hrepeats event hevent commandId hne hid earlier hearlier hrepeat)

/-- Such a commit is refused with a conflict, unless a check before refuses it. -/
theorem Windowed.refused_of_open {w : World ι} (hw : w.Windowed) (E : Env) (handle : Handle)
    (hq : w.RepeatsNone q) (hne : commandId ≠ "") (hopen : w.Open entityId commandId)
    (hwrites : q.Writes entityId commandId) :
    ∃ error, (q.run E (handle.over w.stores)).1 = .error error ∧
      (error.isConflict = true ∨ q.judge E (handle.over w.stores) = .error error) := by
  rw [Request.run_eq]
  cases hplan : q.plan E with
  | error error => exact ⟨error, rfl, .inr (by simp [Request.judge, hplan])⟩
  | ok planned =>
    cases planned with
    | none => exact absurd hplan hwrites.plan_ne_none
    | some write =>
      have hsound := Request.plan_sound hplan
      obtain rfl := Request.write_of_plan hplan
      obtain ⟨c, hc, rfl, event, hevent, hid⟩ := hwrites
      have hfails := streamFailure_of_open hw.sound (hsound.valid c hc) (hq c hc) hevent hne
        hid hopen
      have hrefused := MemRepository.refused_of_streamFailure E (handle.over w.stores) hsound
        (fun entityId => ⟨_, hw.sound entityId⟩) hc hfails
      simpa [Request.judge, hplan] using hrefused

/-- Folding what an event read found sees every event of the log that is not covered. -/
theorem Windowed.watched_read {A : Aggregate} {w : World ι} (hw : w.Windowed)
    {loaded loaded' : Loaded A}
    (h : Watched (w.log entityId) (w.Covered entityId) loaded.sequence loaded.seenCommandIds)
    (hreplay : loaded.replayAll (w.stores.eventsAfter entityId loaded.sequence) = .ok loaded') :
    Watched (w.log entityId) (w.Covered entityId) loaded'.sequence loaded'.seenCommandIds ∧
      ∀ event ∈ w.log entityId, ∀ commandId, commandId ≠ "" →
        event.metadata.commandId = some commandId →
          commandId ∈ loaded'.seenCommandIds ∨ w.Covered entityId event.sequence := by
  have hholds : (w.stores.held entityId).Holds (w.log entityId) := hw.sound entityId
  obtain ⟨k, hevents, hk⟩ := hholds.above h.nonneg
  change w.stores.eventsAfter entityId loaded.sequence = _ at hevents
  rw [hevents] at hreplay
  rcases hk with hk | ⟨hlt, hhead, -, snapshot, hs, hle⟩
  · rw [show k = loaded.sequence.toNat by omega] at hreplay
    obtain ⟨hwatched, hend⟩ := h.replayAll hholds.numbered hreplay
    refine ⟨hwatched, fun event hevent => hwatched.seen event ?_⟩
    rwa [hend, Int.toNat_natCast, List.take_length]
  · -- More was compacted than the load knows: it fails, or a snapshot covers everything.
    cases hrest : (w.log entityId).drop k with
    | nil =>
      rw [hrest] at hreplay
      cases hreplay
      have hlength := List.drop_eq_nil_iff.mp hrest
      refine ⟨h, fun event hevent _ _ _ => .inr ⟨snapshot, hs, ?_⟩⟩
      rw [← List.take_of_length_le hlength] at hevent
      have := sequence_le_of_mem_take hholds.numbered hevent
      omega
    | cons stored rest =>
      rw [hrest] at hreplay
      simp only [Loaded.replayAll, bind_eq_ok] at hreplay
      obtain ⟨next, hnext, -⟩ := hreplay
      obtain ⟨hsequence, -⟩ := Loaded.replay_eq_ok.mp hnext
      have hlast := hholds.head
      have hat : (w.log entityId)[k]? = some stored := by
        rw [← List.head?_drop, hrest]
        rfl
      have hnumber := Consecutive.number_of_getElem? hholds.numbered hat
      unfold EventSequence.next at hsequence
      omega

section Effects

variable {E : Env} {commits : Option ι → Nat → Request → Prop}
  {puts : SerializedSnapshot → Prop} {w w' : World ι}

/-- The snapshot after a passing commit covers its events, or is the old one. -/
theorem snapshot_applyStream_cases {stream : Stream} {log : List SerializedEvent}
    (h : stream.Holds log) (hv : c.Valid) (hevents : c.events ≠ [])
    (hpass : streamFailure stream c = none) :
    (EventStore.applyStream stream c).snapshot = stream.snapshot ∨
      ∃ new, (EventStore.applyStream stream c).snapshot = some new ∧
        stream.head < new.eventSequence := by
  obtain ⟨_, last, -, hlast, -, -, hlt⟩ := h.ends_of_passes hv hevents hpass
  simp only [EventStore.applyStream, hlast]
  cases hnew : c.snapshot with
  | none => exact .inl rfl
  | some new => exact .inr ⟨_, rfl, hlt⟩

/-- What an effect does to a stored snapshot: it stays, or another one covers as much. -/
theorem Effect.snapshot_cases (h : Effect E commits puts w w') (hw : w.history.Sound)
    (entityId : EntityId) :
    (w'.stores.held entityId).snapshot = (w.stores.held entityId).snapshot ∨
      ∃ new, (w'.stores.held entityId).snapshot = some new ∧
        (∀ old, (w.stores.held entityId).snapshot = some old →
          old.eventSequence ≤ new.eventSequence) ∧ (0 ≤ new.eventSequence ∨ puts new) := by
  cases h with
  | quiet data _ => exact .inl (by rw [data.held])
  | @commit entry source accepted data _ =>
    have hsound := Request.plan_sound source.2
    rw [data.held, Write.held_apply hsound]
    cases hc : writerOf _ entityId with
    | none => exact .inl rfl
    | some c =>
      obtain ⟨hmem, hevents, rfl⟩ := writerOf_eq_some hc
      have hholds : (w.stores.held c.entityId).Holds (w.log c.entityId) := hw c.entityId
      rcases snapshot_applyStream_cases hholds (hsound.valid c hmem) hevents
        (accepted.streams c hmem) with hsame | ⟨new, hnew, hlt⟩
      · exact .inl hsame
      · have hhead := hholds.head
        refine .inr ⟨new, hnew, fun old hold => ?_, .inl (by omega)⟩
        have := hholds.covered old hold
        omega
  | @snapshot new source _ newer data _ =>
    rw [data.held, History.held_setStream]
    split
    · rename_i hid
      subst hid
      exact .inr ⟨new, rfl, newer, .inr source⟩
    · exact .inl rfl
  | compact _ _ _ data _ =>
    rw [data.held, History.held_setStream]
    split
    · rename_i hid
      subst hid
      exact .inl rfl
    · exact .inl rfl

theorem Effect.retains (h : Effect E commits puts w w') (hw : w.history.Sound) : Retains w w' := by
  refine ⟨h.grows, fun entityId sequence hcovered => ?_⟩
  obtain ⟨old, hold, hle⟩ := hcovered
  rcases h.snapshot_cases hw entityId with hsame | ⟨new, hnew, hcovers, -⟩
  · exact ⟨old, hsame.trans hold, hle⟩
  · exact ⟨new, hnew, hle.trans (hcovers old hold)⟩

theorem Effect.refuses (h : Effect E commits puts w w') (hw : w.history.Sound)
    (hcommits : ∀ author started q, commits author started q → w.RepeatsNone q) :
    Refuses w w' := by
  intro entityId commandId hne hopen event hevent hid
  cases h with
  | quiet _ applied | snapshot _ _ _ _ applied | compact _ _ _ _ applied =>
    simp only [log_eq, applied, List.drop_length] at hevent
    cases hevent
  | @commit entry source accepted data applied =>
    obtain ⟨source, plan⟩ := source
    have hsound := Request.plan_sound plan
    have hnone := hcommits _ _ _ source
    rw [World.RepeatsNone, ← Request.write_of_plan plan] at hnone
    simp only [log_eq, applied, logOf_append, List.drop_left] at hevent
    rw [logOf_singleton hsound] at hevent
    cases hc : writerOf _ entityId with
    | none =>
      rw [hc] at hevent
      cases hevent
    | some c =>
      rw [hc] at hevent
      obtain ⟨hmem, -, rfl⟩ := writerOf_eq_some hc
      exact streamFailure_of_open hw (hsound.valid c hmem) (hnone c hmem) hevent hne hid hopen
        (accepted.streams c hmem)

theorem Effect.windowed (h : Effect E commits puts w w') (hw : w.Windowed)
    (hputs : ∀ new, puts new → 0 ≤ new.eventSequence)
    (hinFlight : ∀ f ∈ w'.inFlight, w.RepeatsNone f.request) : w'.Windowed := by
  refine ⟨h.sound hw.sound, fun entityId snapshot hs => ?_, fun f hf =>
    (hinFlight f hf).mono (h.retains hw.sound)⟩
  rcases h.snapshot_cases hw.sound entityId with hsame | ⟨new, hnew, -, hnonneg⟩
  · exact hw.nonneg entityId snapshot (hsame.symm.trans hs)
  · obtain rfl : new = snapshot := Option.some.inj (hnew.symm.trans hs)
    exact hnonneg.elim id (hputs new)

end Effects

end World

end EventStore
