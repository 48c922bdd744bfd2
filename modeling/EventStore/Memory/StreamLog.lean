import EventStore.Memory.Effects

/-!
Streams as logs. A stored stream holds the list of all events ever committed to it when it keeps
those above some floor, its head counts them, and a snapshot covers the floor. Only commits change
the log.
-/
namespace EventStore

open Result

/-- The stored stream keeps exactly the events of its log above a covered floor. -/
structure Stream.Holds (stream : Stream) (log : List SerializedEvent) : Prop where
  numbered : Consecutive.From SerializedEvent.sequence 1 log
  head : stream.head = log.length
  stored : ∃ floor : Int, 0 ≤ floor ∧ floor ≤ stream.head ∧
    (0 < floor → ∃ snapshot, stream.snapshot = some snapshot ∧
      floor ≤ snapshot.eventSequence) ∧
    ∀ k : Int, stream.events[k]? =
      if floor < k ∧ k ≤ stream.head then log[(k - 1).toNat]? else none
  covered : ∀ snapshot, stream.snapshot = some snapshot →
    snapshot.eventSequence ≤ stream.head

namespace Stream

theorem holds_absent : Stream.absent.Holds [] := by
  refine ⟨trivial, rfl, ⟨0, le_rfl, le_rfl, fun h => absurd h (lt_irrefl 0), ?_⟩, ?_⟩
  · intro k
    simp [absent]
  · intro snapshot h
    cases h

variable {log : List SerializedEvent} {stream : Stream}

theorem lastEvent_of_stored {floor : Int} (hlog : stream.head = log.length)
    (h : ∀ k : Int, stream.events[k]? =
      if floor < k ∧ k ≤ stream.head then log[(k - 1).toNat]? else none) (hfloor : 0 ≤ floor) :
    stream.lastEvent = if floor < stream.head then stream.head else 0 := by
  have hmem : ∀ k, k ∈ stream.events ↔ floor < k ∧ k ≤ stream.head := by
    intro k
    rw [Std.ExtTreeMap.mem_iff_isSome_getElem?, h k]
    split
    · rename_i hk
      rw [List.getElem?_eq_getElem (by omega : (k - 1).toNat < log.length)]
      simp [hk]
    · rename_i hk
      simp [hk]
  unfold lastEvent
  by_cases hlt : floor < stream.head
  · have hmax : stream.events.maxKey? = some stream.head := by
      rw [Std.ExtTreeMap.maxKey?_eq_some_iff_mem_and_forall]
      refine ⟨(hmem _).mpr ⟨hlt, le_rfl⟩, fun k hk => ?_⟩
      rw [Std.isLE_compare]
      exact ((hmem k).mp hk).2
    simp [hmax, hlt]
  · have hnone : stream.events.maxKey? = none := by
      rw [Std.ExtTreeMap.maxKey?_eq_none_iff]
      apply OrdMap.ext_get
      intro k
      rw [h k, if_neg (by omega)]
      simp
    simp [hnone, hlt]

theorem Holds.derivedHead_eq (h : stream.Holds log) : stream.derivedHead = stream.head := by
  obtain ⟨floor, hfloor, hle, hcover, hstored⟩ := h.stored
  have hpos : 0 ≤ stream.head := by rw [h.head]; omega
  have hsnap : stream.snapshotHead ≤ stream.head := by
    unfold snapshotHead
    cases hs : stream.snapshot with
    | none => simpa using hpos
    | some snapshot => simpa using h.covered snapshot hs
  rw [derivedHead, lastEvent_of_stored h.head hstored hfloor]
  split
  · omega
  · -- Everything is compacted away, so the snapshot that covers the floor is the head's.
    by_cases hzero : 0 < floor
    · obtain ⟨snapshot, hs, hge⟩ := hcover hzero
      have : stream.snapshotHead = snapshot.eventSequence := by simp [snapshotHead, hs]
      omega
    · have hnil : stream.head = 0 := by omega
      omega

variable {c : Commit Op}

/-- A passing stream check puts the commit right after the head. -/
theorem first_of_passes (h : stream.Holds log) {first : SerializedEvent}
    (hfirst : c.events.head? = some first) (hpos : 1 ≤ first.sequence)
    (hpass : streamFailure stream c = none) : first.sequence = log.length + 1 := by
  have hhead := headPasses_of_streamFailure hfirst hpass
  have := h.head
  unfold headPasses at hhead
  split at hhead <;> rw [beq_iff_eq] at hhead <;> omega

/-- A commit that starts right after the log extends it, whatever its snapshot. -/
theorem Holds.extend (h : stream.Holds log) (hv : c.Valid)
    (hnext : ∀ first, c.events.head? = some first → first.sequence = log.length + 1) :
    (applyStream stream c).Holds (log ++ c.events) := by
  cases hfirst : c.events.head? with
  | none =>
    have hnil : c.events = [] := List.head?_eq_none_iff.mp hfirst
    simpa [EventStore.applyStream, hnil] using h
  | some first =>
    have hseq := hnext first hfirst
    have hfrom := hv.consecutive first hfirst
    have hlen : 0 < c.events.length := by
      cases hev : c.events <;> simp_all
    obtain ⟨last, hlast⟩ : ∃ last, c.events.getLast? = some last := by
      cases hl : c.events.getLast? with
      | none => simp [List.getLast?_eq_none_iff.mp hl] at hlen
      | some last => exact ⟨last, rfl⟩
    have hlastSeq := Consecutive.number_of_getLast? hfrom hlast
    obtain ⟨floor, hfloor, hle, hcover, hstored⟩ := h.stored
    have hhead := h.head
    have hnew : (EventStore.applyStream stream c).head = last.sequence := by
      simp only [EventStore.applyStream, hlast]
      omega
    have hevents : (EventStore.applyStream stream c).events =
        Consecutive.store SerializedEvent.sequence stream.events c.events := by
      simp only [EventStore.applyStream, hlast, insertEvents]
    refine ⟨?_, ?_, ⟨floor, hfloor, by omega, ?_, ?_⟩, ?_⟩
    · rw [Consecutive.from_append]
      exact ⟨h.numbered, by rw [add_comm, ← hseq]; exact hfrom⟩
    · rw [hnew, hlastSeq, List.length_append, hseq]
      push_cast
      ring
    · intro hpos
      obtain ⟨snapshot, hs, hge⟩ := hcover hpos
      simp only [EventStore.applyStream, hlast]
      cases c.snapshot with
      | none => exact ⟨snapshot, hs, hge⟩
      | some new => exact ⟨_, rfl, by simp only; omega⟩
    · intro k
      rw [hevents, Consecutive.get_store hfrom, hnew, hstored k]
      by_cases hin : first.sequence ≤ k ∧ k < first.sequence + c.events.length
      · rw [if_pos hin, if_pos (by omega), List.getElem?_append_right (by omega)]
        congr 1
        omega
      · rw [if_neg hin]
        by_cases hold : floor < k ∧ k ≤ stream.head
        · rw [if_pos hold, if_pos (by omega), List.getElem?_append_left (by omega)]
        · rw [if_neg hold, if_neg (by omega)]
    · intro snapshot hs
      simp only [EventStore.applyStream, hlast] at hs
      cases hc : c.snapshot with
      | none =>
        rw [hc] at hs
        have := h.covered snapshot hs
        omega
      | some new =>
        rw [hc] at hs
        cases hs
        simp only
        omega

/-- A passing commit's events follow the log, from the first to the last. -/
theorem Holds.ends_of_passes (h : stream.Holds log) (hv : c.Valid) (hevents : c.events ≠ [])
    (hpass : streamFailure stream c = none) :
    ∃ first last, c.events.head? = some first ∧ c.events.getLast? = some last ∧
      first.sequence = log.length + 1 ∧ last.sequence = log.length + c.events.length ∧
        stream.head < last.sequence := by
  have hfirst := List.head?_eq_some_head hevents
  have hlast := List.getLast?_eq_some_getLast hevents
  have hplace := first_of_passes h hfirst (hv.positive _ hfirst) hpass
  have hnumber := Consecutive.number_of_getLast? (hv.consecutive _ hfirst) hlast
  have hlength : 0 < c.events.length := List.length_pos_iff.mpr hevents
  have hhead := h.head
  exact ⟨_, _, hfirst, hlast, hplace, by omega, by omega⟩

theorem Holds.applyStream (h : stream.Holds log) (hv : c.Valid)
    (hpass : streamFailure stream c = none) : (applyStream stream c).Holds (log ++ c.events) :=
  h.extend hv fun first hfirst => first_of_passes h hfirst (hv.positive first hfirst) hpass

theorem Holds.putSnapshot (h : stream.Holds log) {snapshot : SerializedSnapshot}
    (hhead : ¬(0 < snapshot.eventSequence ∧ stream.head < snapshot.eventSequence))
    (hahead : ∀ existing, stream.snapshot = some existing →
      existing.eventSequence ≤ snapshot.eventSequence) :
    ({ stream with snapshot := some snapshot } : Stream).Holds log := by
  obtain ⟨floor, hfloor, hle, hcover, hstored⟩ := h.stored
  have hlog := h.head
  refine ⟨h.numbered, h.head, ⟨floor, hfloor, hle, ?_, hstored⟩, ?_⟩
  · intro hpos
    obtain ⟨existing, hs, hge⟩ := hcover hpos
    exact ⟨snapshot, rfl, hge.trans (hahead existing hs)⟩
  · rintro _ ⟨⟩
    show snapshot.eventSequence ≤ stream.head
    omega

theorem Holds.compact (h : stream.Holds log) {through : Int} {snapshot : SerializedSnapshot}
    (hs : stream.snapshot = some snapshot) (hcovered : through ≤ snapshot.eventSequence) :
    ({ stream with events := stream.events.filter fun k _ => through < k } : Stream).Holds
      log := by
  obtain ⟨floor, hfloor, hle, hcover, hstored⟩ := h.stored
  have hsnap := h.covered snapshot hs
  refine ⟨h.numbered, h.head, ⟨max floor through, by omega, by simp only; omega, ?_, ?_⟩,
    h.covered⟩
  · intro _
    by_cases hpos : 0 < floor
    · obtain ⟨existing, he, hge⟩ := hcover hpos
      obtain rfl : existing = snapshot := by simpa [hs] using he.symm
      exact ⟨existing, hs, by omega⟩
    · exact ⟨snapshot, hs, by omega⟩
  · intro k
    rw [OrdMap.get_filter, hstored k]
    by_cases hin : max floor through < k ∧ k ≤ stream.head
    · rw [if_pos hin, if_pos (by omega)]
      have : through < k := by omega
      cases log[(k - 1).toNat]? <;> simp [this]
    · rw [if_neg hin]
      split
      · have : ¬through < k := by omega
        cases log[(k - 1).toNat]? <;> simp [this]
      · rfl

/-- A read above a sequence finds the end of the log, from there or from a covered floor. -/
theorem Holds.above (h : stream.Holds log) {after : Int} (hafter : 0 ≤ after) :
    ∃ k : Nat, (stream.events.toList.filter fun entry => after < entry.1).map (·.2) =
        log.drop k ∧
      (after = k ∨ after < k ∧ (k : Int) ≤ stream.head ∧
        stream.events.contains (after + 1) = false ∧
        ∃ snapshot, stream.snapshot = some snapshot ∧ (k : Int) ≤ snapshot.eventSequence) := by
  obtain ⟨floor, hfloor, hle, hcover, hstored⟩ := h.stored
  have hhead := h.head
  refine ⟨(max floor after).toNat, ?_, ?_⟩
  · set k := (max floor after).toNat with hk
    rw [← Std.ExtTreeMap.toList_filter (f := fun j (_ : SerializedEvent) => decide (after < j))]
    refine @Consecutive.values_toList _ SerializedEvent.sequence (1 + k) _ ?_ _ ?_
    · by_cases hlen : k ≤ log.length
      · have hsplit := List.take_append_drop k log ▸ h.numbered
        have := (Consecutive.from_append.mp hsplit).2
        rwa [List.length_take_of_le hlen] at this
      · rw [List.drop_eq_nil_of_le (by omega)]
        trivial
    · intro j
      rw [OrdMap.get_filter, hstored j, List.getElem?_drop, List.length_drop]
      by_cases hj : floor < j ∧ j ≤ stream.head
      · rw [if_pos hj]
        by_cases hlt : after < j
        · rw [if_pos (by omega), show k + (j - (1 + k)).toNat = (j - 1).toNat by omega]
          cases log[(j - 1).toNat]? <;> simp [hlt]
        · rw [if_neg (by omega)]
          cases log[(j - 1).toNat]? <;> simp [hlt]
      · rw [if_neg hj, if_neg (by omega)]
        rfl
  · by_cases hlt : after < floor
    · obtain ⟨snapshot, hs, hge⟩ := hcover (by omega)
      refine .inr ⟨by omega, by omega, ?_, snapshot, hs, by omega⟩
      rw [OrdMap.contains_eq, hstored, if_neg (by omega)]
      rfl
    · exact .inl (by omega)

end Stream

/-- The marker a handle validated and whether it journals. -/
structure Handle where
  validated : CachedMarker
  journaling : Bool

def Handle.over (handle : Handle) (stores : Stores) : MemRepository :=
  ⟨stores, handle.validated, handle.journaling⟩

/-- The calls that change the stores; a control call changes manifest or fence. -/
inductive Call where
  | submit (request : Request)
  | putSnapshot (snapshot : SerializedSnapshot)
  | compactBelow (entityId : EntityId) (through : Int)
  | control (manifest : Option FeatureManifest) (rebuild : RebuildState)

structure History where
  stores : Stores
  applied : List Write

namespace History

def empty : History := ⟨.empty, []⟩

def written (h : History) : List SerializedEvent := h.applied.flatMap (·.events)

def log (h : History) (entityId : EntityId) : List SerializedEvent :=
  h.written.filter fun event => event.entityId == entityId

def appliedBy (E : Env) (q : Request) : Except Error Unit → List Write
  | .error _ => []
  | .ok () =>
    match q.plan E with
    | .ok (some w) => [w]
    | _ => []

def step (E : Env) (h : History) (handle : Handle) : Call → History
  | .submit q =>
    let (result, r) := q.run E (handle.over h.stores)
    ⟨r.stores, h.applied ++ appliedBy E q result⟩
  | .putSnapshot snapshot =>
    ⟨((handle.over h.stores).putSnapshot E snapshot).2.stores, h.applied⟩
  | .compactBelow entityId through =>
    ⟨((handle.over h.stores).compactBelow E entityId through).2.stores, h.applied⟩
  | .control manifest rebuild => ⟨{ h.stores with manifest, rebuild }, h.applied⟩

def run (E : Env) (h : History) (calls : List (Handle × Call)) : History :=
  calls.foldl (fun h call => h.step E call.1 call.2) h

/-- What a call does to the stores and to the commits that applied: nothing, a planned write, a
newer snapshot, or a cut of what a snapshot covers. -/
inductive Changes {τ : Type} (write : τ → Write) (commits : τ → Prop)
    (puts : SerializedSnapshot → Prop) (cuts : Prop) (s : Stores) (applied : List τ)
    (s' : Stores) (applied' : List τ) : Prop
  | quiet (data : SameData s s') (same : applied' = applied)
  | commit {entry : τ} (source : commits entry) (accepted : (write entry).Accepted s)
      (data : SameData ((write entry).apply s) s') (grown : applied' = applied ++ [entry])
  | snapshot {snapshot : SerializedSnapshot} (source : puts snapshot)
      (head : ¬(0 < snapshot.eventSequence ∧
        (s.held snapshot.entityId).head < snapshot.eventSequence))
      (newer : ∀ existing, (s.held snapshot.entityId).snapshot = some existing →
        existing.eventSequence ≤ snapshot.eventSequence)
      (data : SameData (s.setStream snapshot.entityId
        { s.held snapshot.entityId with snapshot := some snapshot }) s')
      (same : applied' = applied)
  | compact {entityId : EntityId} {through : Int} {snapshot : SerializedSnapshot} (source : cuts)
      (held : (s.held entityId).snapshot = some snapshot)
      (covered : through ≤ snapshot.eventSequence)
      (data : SameData (s.setStream entityId
        { s.held entityId with
          events := (s.held entityId).events.filter fun k _ => through < k }) s')
      (same : applied' = applied)

section Changes

variable {τ : Type} {write : τ → Write} {commits commits' : τ → Prop}
  {puts puts' : SerializedSnapshot → Prop} {cuts cuts' : Prop} {s s' : Stores}
  {applied applied' : List τ}

theorem Changes.mono (h : Changes write commits puts cuts s applied s' applied')
    (hcommits : ∀ entry, commits entry → commits' entry)
    (hputs : ∀ snapshot, puts snapshot → puts' snapshot) (hcuts : cuts → cuts') :
    Changes write commits' puts' cuts' s applied s' applied' := by
  cases h with
  | quiet data same => exact .quiet data same
  | commit source accepted data grown => exact .commit (hcommits _ source) accepted data grown
  | snapshot source head newer data same =>
    exact .snapshot (hputs _ source) head newer data same
  | compact source held covered data same =>
    exact .compact (hcuts source) held covered data same

theorem Changes.grows (h : Changes write commits puts cuts s applied s' applied') :
    applied <+: applied' := by
  cases h with
  | quiet _ same | snapshot _ _ _ _ same | compact _ _ _ _ same => rw [same]
  | commit _ _ _ grown =>
    rw [grown]
    exact List.prefix_append _ _

/-- What every entry has, if every commit's has it. -/
theorem Changes.forall_mem {P : τ → Prop}
    (h : Changes write commits puts cuts s applied s' applied')
    (hcommits : ∀ entry, commits entry → P entry) (hP : ∀ entry ∈ applied, P entry) :
    ∀ entry ∈ applied', P entry := by
  cases h with
  | quiet _ same | snapshot _ _ _ _ same | compact _ _ _ _ same => rwa [same]
  | commit source _ _ grown =>
    rw [grown, List.forall_mem_append, List.forall_mem_singleton]
    exact ⟨hP, hcommits _ source⟩

/-- A submitted request changes nothing, or applies what it planned. -/
theorem submit_cases (E : Env) (s : Stores) (handle : Handle) (q : Request) :
    (SameData s (q.run E (handle.over s)).2.stores ∧
      appliedBy E q (q.run E (handle.over s)).1 = [] ∧
      ((q.run E (handle.over s)).1 = .ok () → q.plan E = .ok none)) ∨
    (q.run E (handle.over s)).1 = .ok () ∧ ∃ w, q.plan E = .ok (some w) ∧ w.Accepted s ∧
      SameData (w.apply s) (q.run E (handle.over s)).2.stores ∧
      appliedBy E q (q.run E (handle.over s)).1 = [w] := by
  rw [Request.run_eq]
  cases hplan : q.plan E with
  | error error => exact .inl ⟨.refl _, rfl, by simp⟩
  | ok planned =>
    cases planned with
    | none => exact .inl ⟨.refl _, by simp [appliedBy, hplan], by simp⟩
    | some w =>
      simp only
      rcases hr : (handle.over s).perform E w with ⟨_ | _, r⟩
      · obtain rfl := MemRepository.perform_eq_error hr
        exact .inl ⟨sameData_checkManifest E (handle.over s), rfl, by simp⟩
      · obtain ⟨haccepted, hstores⟩ := MemRepository.perform_eq_ok hr
        refine .inr ⟨rfl, w, rfl, haccepted, ?_, by simp [appliedBy, hplan]⟩
        simp only [hstores]
        exact ⟨rfl, rfl, rfl⟩

variable (write applied) in
theorem putSnapshot_changes (E : Env) (s : Stores) (handle : Handle)
    (snapshot : SerializedSnapshot) :
    Changes write (fun _ => False) (· = snapshot) False s applied
      ((handle.over s).putSnapshot E snapshot).2.stores applied := by
  simp only [MemRepository.putSnapshot]
  cases checkNotReserved snapshot.entityId with
  | error error => exact .quiet (.refl _) rfl
  | ok u =>
    have hdata := sameData_checkManifest E (handle.over s)
    rcases hm : (handle.over s).checkManifest E with ⟨_ | _, r⟩ <;>
      rw [hm] at hdata <;> simp only [Handle.over] at hdata ⊢
    · exact .quiet hdata rfl
    · have hheld := hdata.held snapshot.entityId
      cases hcheck : MemRepository.checkPutSnapshot r.stores snapshot with
      | error error => exact .quiet hdata rfl
      | ok stored =>
        cases stored with
        | false => exact .quiet hdata rfl
        | true =>
          simp only [MemRepository.checkPutSnapshot, hheld] at hcheck
          split at hcheck
          · cases hcheck
          · rename_i hhead
            refine .snapshot rfl hhead ?_ ?_ rfl
            · intro existing hexisting
              rw [hexisting] at hcheck
              simpa using hcheck
            · simp only [hheld, Stores.setStream, hdata.streams]
              exact ⟨rfl, hdata.views, hdata.outcomes⟩

variable (write applied) in
theorem compactBelow_changes (E : Env) (s : Stores) (handle : Handle) (entityId : EntityId)
    (through : Int) :
    Changes write (fun _ => False) (fun _ => False) True s applied
      ((handle.over s).compactBelow E entityId through).2.stores applied := by
  simp only [MemRepository.compactBelow]
  cases checkNotReserved entityId with
  | error error => exact .quiet (.refl _) rfl
  | ok u =>
    simp only
    split
    · exact .quiet (.refl _) rfl
    · cases hcheck : (handle.over s).checkCompaction E entityId through with
      | error error => exact .quiet (.refl _) rfl
      | ok stream =>
        simp only [MemRepository.checkCompaction, bind_eq_ok] at hcheck
        obtain ⟨-, -, hcheck⟩ := hcheck
        split at hcheck
        · cases hcheck
        · rename_i found hfound
          simp only [seq_eq_ok, MemRepository.checkCovered, refuse_eq_ok] at hcheck
          obtain ⟨hcovered, -, hstream⟩ := hcheck
          obtain rfl : found = stream := by cases hstream; rfl
          have hheld : s.held entityId = found := by
            simp only [Handle.over] at hfound
            simp [Stores.held, hfound]
          cases hs : found.snapshot with
          | none => simp [hs] at hcovered
          | some snapshot =>
            have hsnapshot : (s.held entityId).snapshot = some snapshot := by
              rw [hheld, hs]
            have hcut : through ≤ snapshot.eventSequence := by simpa [hs] using hcovered
            refine .compact trivial hsnapshot hcut ?_ rfl
            rw [hheld]
            exact .refl _

end Changes

theorem step_changes (E : Env) (h : History) (handle : Handle) (call : Call) :
    Changes id (fun w => ∃ q : Request, q.plan E = .ok (some w)) (fun _ => True) True h.stores
      h.applied (h.step E handle call).stores (h.step E handle call).applied := by
  cases call with
  | submit q =>
    simp only [step]
    rcases submit_cases E h.stores handle q with
      ⟨data, happlied, -⟩ | ⟨-, w, plan, accepted, data, happlied⟩
    · exact .quiet data (by rw [happlied, List.append_nil])
    · exact .commit ⟨q, plan⟩ accepted data (by rw [happlied])
  | putSnapshot snapshot =>
    exact (putSnapshot_changes id h.applied E h.stores handle snapshot).mono
      (fun _ => False.elim) (fun _ _ => trivial) False.elim
  | compactBelow entityId through =>
    exact (compactBelow_changes id h.applied E h.stores handle entityId through).mono
      (fun _ => False.elim) (fun _ => False.elim) id
  | control manifest rebuild => exact .quiet ⟨rfl, rfl, rfl⟩ rfl

def Sound (h : History) : Prop := ∀ entityId, (h.stores.held entityId).Holds (h.log entityId)

theorem sound_empty : empty.Sound := by
  intro entityId
  simpa [empty, Stores.empty, Stores.held, log, written] using Stream.holds_absent

theorem held_setStream (s : Stores) (entityId other : EntityId) (stream : Stream) :
    (s.setStream entityId stream).held other =
      if other = entityId then stream else s.held other := by
  simp only [Stores.held, Stores.setStream, OrdMap.get_insert]
  split <;> simp

theorem filter_events {w : Write} (hw : w.Sound) (entityId : EntityId) :
    w.events.filter (fun event => event.entityId == entityId) =
      match writerOf w.streams entityId with
      | none => []
      | some c => c.events := by
  obtain ⟨hvalid, hsorted, -, -⟩ := hw
  unfold Write.events
  generalize w.streams = streams at hvalid hsorted ⊢
  induction streams with
  | nil => rfl
  | cons c streams ih =>
    obtain ⟨hlt, hsorted⟩ := List.pairwise_cons.mp hsorted
    have hc := hvalid c (by simp)
    have ih := ih (fun d hd => hvalid d (by simp [hd])) hsorted
    rw [List.flatMap_cons, List.filter_append, ih]
    by_cases hid : c.entityId = entityId
    · have hlater : writerOf streams entityId = none := by
        rw [writerOf_eq_none]
        intro d hmem heq
        exact absurd (hid.trans heq.symm) (hlt d hmem).ne
      have hall : c.events.filter (fun event => event.entityId == entityId) = c.events := by
        rw [List.filter_eq_self]
        intro event hevent
        simp [(hc.identity event hevent).1, hid]
      rw [hlater, hall]
      by_cases he : c.events = []
      · have hskip : writerOf (c :: streams) entityId = writerOf streams entityId := by
          simp [writerOf, he]
        rw [hskip, hlater, he]
        rfl
      · have hnow : writerOf (c :: streams) entityId = some c := by
          simp [writerOf, he, hid]
        rw [hnow]
        simp
    · have hnone : c.events.filter (fun event => event.entityId == entityId) = [] := by
        rw [List.filter_eq_nil_iff]
        intro event hevent
        simp [(hc.identity event hevent).1, hid]
      have hskip : writerOf (c :: streams) entityId = writerOf streams entityId := by
        simp [writerOf, hid]
      rw [hnone, hskip, List.nil_append]

theorem log_append (s s' : Stores) (applied : List Write) (w : Write) (entityId : EntityId) :
    (History.mk s' (applied ++ [w])).log entityId =
      (History.mk s applied).log entityId ++
        w.events.filter fun event => event.entityId == entityId := by
  simp [log, written, List.filter_append]

theorem Changes.sound {τ : Type} {write : τ → Write} {commits : τ → Prop}
    {puts : SerializedSnapshot → Prop} {cuts : Prop} {s s' : Stores} {applied applied' : List τ}
    (h : Changes write commits puts cuts s applied s' applied')
    (hcommits : ∀ entry, commits entry → (write entry).Sound)
    (hs : Sound ⟨s, applied.map write⟩) : Sound ⟨s', applied'.map write⟩ := by
  intro entityId
  have hold : (s.held entityId).Holds _ := hs entityId
  cases h with
  | quiet data same =>
    subst same
    exact (data.held entityId).symm ▸ hold
  | @commit entry source accepted data grown =>
    have hw := hcommits entry source
    subst grown
    show (s'.held entityId).Holds _
    rw [data.held, Write.held_apply hw, List.map_append, List.map_singleton, log_append s,
      filter_events hw]
    cases hc : writerOf _ entityId with
    | none => simpa using hold
    | some c =>
      obtain ⟨hmem, -, hid⟩ := writerOf_eq_some hc
      exact hold.applyStream (hw.valid c hmem) (hid ▸ accepted.streams c hmem)
  | snapshot _ head newer data same =>
    subst same
    show (s'.held entityId).Holds _
    rw [data.held, held_setStream]
    split
    · rename_i hid
      rw [hid] at hold ⊢
      exact hold.putSnapshot head newer
    · exact hold
  | compact _ held covered data same =>
    subst same
    show (s'.held entityId).Holds _
    rw [data.held, held_setStream]
    split
    · rename_i hid
      rw [hid] at hold ⊢
      exact hold.compact held covered
    · exact hold

theorem sound_step (E : Env) (h : History) (handle : Handle) (call : Call) (hs : h.Sound) :
    (h.step E handle call).Sound := by
  have hsound := (step_changes E h handle call).sound (fun _ ⟨_, hplan⟩ => Request.plan_sound hplan)
  simp only [List.map_id] at hsound
  exact hsound hs

theorem sound_run (E : Env) (h : History) (calls : List (Handle × Call)) (hs : h.Sound) :
    (h.run E calls).Sound := by
  induction calls generalizing h with
  | nil => exact hs
  | cons call calls ih => exact ih _ (sound_step E h call.1 call.2 hs)

def highestCommitted (h : History) (entityId : EntityId) : Int :=
  ((h.log entityId).map (·.sequence)).foldl max 0

theorem foldl_max_of_from {n : Int} {l : List SerializedEvent} (acc : Int)
    (h : Consecutive.From SerializedEvent.sequence n l) (hacc : acc = n - 1) :
    (l.map (·.sequence)).foldl max acc = n + l.length - 1 := by
  induction l generalizing n acc with
  | nil => simp [hacc]
  | cons event l ih =>
    rw [List.map_cons, List.foldl_cons, ih (max acc event.sequence) h.2 (by have := h.1; omega)]
    simp only [List.length_cons, Nat.cast_add, Nat.cast_one]
    omega

theorem log_grows {h h' : History} (hgrows : h.applied <+: h'.applied) (entityId : EntityId) :
    h.log entityId <+: h'.log entityId := by
  obtain ⟨more, hmore⟩ := hgrows
  rw [log, log, written, written, ← hmore, List.flatMap_append, List.filter_append]
  exact List.prefix_append _ _

theorem log_grows_run (E : Env) (h : History) (calls : List (Handle × Call))
    (entityId : EntityId) : h.log entityId <+: (h.run E calls).log entityId := by
  induction calls generalizing h with
  | nil => exact List.prefix_rfl
  | cons call calls ih =>
    exact (log_grows (step_changes E h call.1 call.2).grows entityId).trans (ih _)

theorem nodup_addresses {events : List SerializedEvent}
    (h : ∀ entityId,
      ((events.filter fun event => event.entityId == entityId).map (·.sequence)).Nodup) :
    (events.map fun event => (event.entityId, event.sequence)).Nodup := by
  induction events with
  | nil => simp
  | cons event events ih =>
    rw [List.map_cons, List.nodup_cons]
    refine ⟨?_, ih fun entityId => ?_⟩
    · intro hmem
      obtain ⟨other, hother, heq⟩ := List.mem_map.mp hmem
      obtain ⟨hid, hseq⟩ := Prod.mk.inj heq
      have hnodup := h event.entityId
      rw [List.filter_cons_of_pos (by simp), List.map_cons, List.nodup_cons] at hnodup
      exact hnodup.1 (List.mem_map.mpr ⟨other, by simp [hother, hid], hseq⟩)
    · have hnodup := h entityId
      rw [List.filter_cons] at hnodup
      split at hnodup
      · exact (List.nodup_cons.mp hnodup).2
      · exact hnodup

/-- Every stream stores exactly the events between a covered floor and its head, and no address is
ever written twice. -/
theorem reachable_stream_log (E : Env) (calls : List (Handle × Call)) (entityId : EntityId) :
    let h := empty.run E calls
    let stream := h.stores.held entityId
    stream.head = h.highestCommitted entityId ∧
    stream.head = stream.derivedHead ∧
    (∃ floor : Int, 0 ≤ floor ∧
      (∀ k : Int, stream.events.contains k = true ↔ floor < k ∧ k ≤ stream.head) ∧
      (0 < floor → ∃ snapshot, stream.snapshot = some snapshot ∧
        floor ≤ snapshot.eventSequence)) ∧
    (∀ (k : Int) event, stream.events[k]? = some event →
      event ∈ h.written ∧ event.entityId = entityId ∧ event.sequence = k) ∧
    (∀ snapshot, stream.snapshot = some snapshot → snapshot.eventSequence ≤ stream.head) ∧
    (∀ more, stream.head ≤ ((h.run E more).stores.held entityId).head) ∧
    (h.written.map fun event => (event.entityId, event.sequence)).Nodup := by
  intro h stream
  have hsound : h.Sound := sound_run E empty calls sound_empty
  have hholds : stream.Holds (h.log entityId) := hsound entityId
  obtain ⟨floor, hfloor, hle, hcover, hstored⟩ := hholds.stored
  have hlen := hholds.head
  refine ⟨?_, hholds.derivedHead_eq.symm, ⟨floor, hfloor, ?_, hcover⟩, ?_, hholds.covered, ?_, ?_⟩
  · rw [highestCommitted, foldl_max_of_from 0 hholds.numbered rfl, hlen]
    ring
  · intro k
    rw [OrdMap.contains_eq, hstored k]
    split
    · rename_i hk
      rw [List.getElem?_eq_getElem (by omega : (k - 1).toNat < (h.log entityId).length)]
      simp [hk]
    · rename_i hk
      simp [hk]
  · intro k event hget
    rw [hstored k] at hget
    split at hget
    · rename_i hk
      have hmem := List.mem_filter.mp (List.mem_of_getElem? hget)
      have hnumber := Consecutive.number_of_getElem? hholds.numbered hget
      exact ⟨hmem.1, by simpa using hmem.2, by omega⟩
    · cases hget
  · intro more
    have hlater := (sound_run E h more hsound) entityId
    have := (log_grows_run E h more entityId).length_le
    rw [hlen, hlater.head]
    omega
  · exact nodup_addresses fun other => Consecutive.nodup_map (hsound other).numbered

end History

end EventStore
