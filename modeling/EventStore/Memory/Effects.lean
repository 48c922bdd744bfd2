import EventStore.Memory.Writes

/-!
The effect of an accepted write, key by key: which stream, view row and outcome
row it leaves under every key. The stores change nowhere else.
-/
namespace EventStore

variable {Op : Type}

def writerOf (streams : List (Commit Op)) (entityId : EntityId) : Option (Commit Op) :=
  streams.find? fun c => !c.events.isEmpty && c.entityId == entityId

theorem writerOf_eq_some {streams : List (Commit Op)} {entityId : EntityId} {c : Commit Op}
    (h : writerOf streams entityId = some c) :
    c ∈ streams ∧ c.events ≠ [] ∧ c.entityId = entityId := by
  have hc := List.find?_some h
  simp only [Bool.and_eq_true, Bool.not_eq_true', List.isEmpty_eq_false_iff, beq_iff_eq] at hc
  exact ⟨List.mem_of_find?_eq_some h, hc.1, hc.2⟩

theorem writerOf_eq_none {streams : List (Commit Op)} {entityId : EntityId} :
    writerOf streams entityId = none ↔
      ∀ c ∈ streams, c.entityId = entityId → c.events = [] := by
  simp only [writerOf, List.find?_eq_none, Bool.and_eq_true, Bool.not_eq_true',
    List.isEmpty_eq_false_iff, beq_iff_eq, not_and]
  exact forall₂_congr fun c _ => ⟨fun h heq => by_contra fun hne => h hne heq,
    fun h hne heq => hne (h heq)⟩

/-- The writer of a stream is the one commit of the write set that names it. -/
theorem writerOf_of_mem {streams : List (Commit Op)}
    (hd : streams.Pairwise fun a b => a.entityId < b.entityId) {c : Commit Op}
    (hc : c ∈ streams) (he : c.events ≠ []) : writerOf streams c.entityId = some c := by
  induction streams with
  | nil => cases hc
  | cons d streams ih =>
    obtain ⟨hlt, hd⟩ := List.pairwise_cons.mp hd
    rcases List.mem_cons.mp hc with rfl | hc
    · simp [writerOf, he]
    · have hne : d.entityId ≠ c.entityId := (hlt c hc).ne
      have := ih hd hc
      simp only [writerOf] at this ⊢
      rw [List.find?_cons_of_neg (by simp [hne])]
      exact this

theorem get_applyStreams {streams : List (Commit Op)}
    (hd : streams.Pairwise fun a b => a.entityId < b.entityId)
    (stored : OrdMap EntityId Stream) (entityId : EntityId) :
    (applyStreams stored streams)[entityId]? =
      match writerOf streams entityId with
      | none => stored[entityId]?
      | some c => some (applyStream (stored[entityId]?.getD .absent) c) := by
  induction streams generalizing stored with
  | nil => rfl
  | cons c streams ih =>
    obtain ⟨hlt, hd⟩ := List.pairwise_cons.mp hd
    simp only [applyStreams, List.foldl_cons] at ih ⊢
    rw [ih hd]
    by_cases he : c.events.isEmpty = true
    · simp [he, writerOf]
    · simp only [he]
      by_cases hid : c.entityId = entityId
      · -- The head of the list writes the stream, and no later commit names it.
        have hlater : writerOf streams entityId = none := by
          rw [writerOf_eq_none]
          intro d hmem heq
          exact absurd (hid.trans heq.symm) (hlt d hmem).ne
        have hnow : writerOf (c :: streams) entityId = some c := by
          simp [writerOf, he, hid]
        rw [hlater, hnow, hid]
        exact OrdMap.get_insert_self _ _ _
      · have hskip : writerOf (c :: streams) entityId = writerOf streams entityId := by
          simp [writerOf, hid]
        have hget : (stored.insert c.entityId
            (applyStream (stored[c.entityId]?.getD .absent) c))[entityId]? =
              stored[entityId]? := OrdMap.get_insert_ne _ _ (Ne.symm hid)
        rw [hskip]
        simp only [hget, Bool.false_eq_true, if_false]

theorem headPasses_of_streamFailure {held : Stream} {c : Commit Op}
    {first : SerializedEvent} (hfirst : c.events.head? = some first)
    (hpass : streamFailure held c = none) : held.headPasses first.sequence = true := by
  unfold streamFailure at hpass
  cases hev : c.events with
  | nil => simp [hev] at hfirst
  | cons e events =>
    obtain rfl : e = first := by simpa [hev] using hfirst
    simp only [hev] at hpass
    split at hpass
    · cases hpass
    · rename_i hhead
      simpa using hhead

theorem get_applyStream {held : Stream} {c : Commit Op} (hv : c.Valid)
    {first : SerializedEvent} (hfirst : c.events.head? = some first) (k : Int) :
    (applyStream held c).events[k]? =
      if first.sequence ≤ k ∧ k < first.sequence + c.events.length then
        c.events[(k - first.sequence).toNat]?
      else held.events[k]? := by
  obtain ⟨last, hlast⟩ : ∃ last, c.events.getLast? = some last := by
    cases hl : c.events.getLast? with
    | none => simp [List.getLast?_eq_none_iff.mp hl] at hfirst
    | some last => exact ⟨last, rfl⟩
  simp only [applyStream, hlast, insertEvents]
  exact Consecutive.get_store (hv.consecutive first hfirst) held.events k

theorem get_applyStream_mem {held : Stream} {c : Commit Op} (hv : c.Valid)
    {event : SerializedEvent} (h : event ∈ c.events) :
    (applyStream held c).events[event.sequence]? = some event := by
  obtain ⟨first, hfirst⟩ : ∃ first, c.events.head? = some first := by
    cases hc : c.events.head? with
    | none => simp [List.head?_eq_none_iff.mp hc] at h
    | some first => exact ⟨first, rfl⟩
  obtain ⟨i, hi, rfl⟩ := List.mem_iff_getElem.mp h
  have hnumber := Consecutive.number_of_getElem? (hv.consecutive first hfirst)
    (List.getElem?_eq_getElem hi)
  rw [get_applyStream hv hfirst, if_pos (by omega),
    show (c.events[i].sequence - first.sequence).toNat = i by omega]
  exact List.getElem?_eq_getElem hi

theorem get_applyStream_other {held : Stream} {c : Commit Op} (hv : c.Valid) {k : Int}
    (h : ∀ event ∈ c.events, event.sequence ≠ k) :
    (applyStream held c).events[k]? = held.events[k]? := by
  cases hc : c.events.head? with
  | none => simp [applyStream, List.head?_eq_none_iff.mp hc]
  | some first =>
    rw [get_applyStream hv hc, if_neg]
    intro hin
    have hlt : (k - first.sequence).toNat < c.events.length := by omega
    have hnumber := Consecutive.number_of_getElem? (hv.consecutive first hc)
      (List.getElem?_eq_getElem hlt)
    exact h _ (List.getElem_mem hlt) (by omega)

theorem head_applyStream {held : Stream} {c : Commit Op} (hv : c.Valid)
    (hpass : streamFailure held c = none) {last : SerializedEvent}
    (hlast : c.events.getLast? = some last) : (applyStream held c).head = last.sequence := by
  obtain ⟨first, hfirst⟩ : ∃ first, c.events.head? = some first := by
    cases hc : c.events.head? with
    | none => simp [List.head?_eq_none_iff.mp hc] at hlast
    | some first => exact ⟨first, rfl⟩
  have hseq := Consecutive.number_of_getLast? (hv.consecutive first hfirst) hlast
  have hhead := headPasses_of_streamFailure hfirst hpass
  have hpos := hv.positive first hfirst
  have hlen : c.events.length ≠ 0 := by
    intro h
    simp [List.length_eq_zero_iff.mp h] at hlast
  simp only [Stream.headPasses] at hhead
  simp only [applyStream, hlast]
  split at hhead <;> rw [beq_iff_eq] at hhead <;> omega

def ViewOperation.result (op : ViewOperation) : Option ViewRow :=
  match op.kind with
  | .put => some (.of op)
  | .delete => none

theorem get_applyView (rows : OrdMap ViewKey ViewRow) (view : ProjectedView) (key : ViewKey) :
    (applyView rows view)[key]? = if key = view.op.key then view.op.result else rows[key]? := by
  unfold applyView ViewOperation.result
  cases view.op.kind with
  | put => exact OrdMap.get_insert rows _ _ _
  | delete => exact OrdMap.get_erase rows _ _

theorem get_applyViews {views : List ProjectedView} (hd : (views.map (·.op.key)).Nodup)
    (rows : OrdMap ViewKey ViewRow) (key : ViewKey) :
    (applyViews rows views)[key]? =
      match views.find? (fun view => view.op.key == key) with
      | none => rows[key]?
      | some view => view.op.result := by
  induction views generalizing rows with
  | nil => rfl
  | cons view views ih =>
    obtain ⟨hfresh, hd⟩ := List.nodup_cons.mp hd
    simp only [applyViews, List.foldl_cons] at ih ⊢
    rw [ih hd, get_applyView]
    by_cases hk : view.op.key = key
    · have hlater : views.find? (fun view => view.op.key == key) = none := by
        rw [List.find?_eq_none]
        intro other hmem heq
        exact hfresh (List.mem_map.mpr ⟨other, hmem, (beq_iff_eq.mp heq).trans hk.symm⟩)
      simp [hlater, hk]
    · rw [List.find?_cons_of_neg (by simpa using hk), if_neg (Ne.symm hk)]

theorem find?_key_of_mem {views : List ProjectedView} (hd : (views.map (·.op.key)).Nodup)
    {view : ProjectedView} (h : view ∈ views) :
    views.find? (fun other => other.op.key == view.op.key) = some view := by
  cases hf : views.find? (fun other => other.op.key == view.op.key) with
  | none => exact absurd (List.find?_eq_none.mp hf view h) (by simp)
  | some other =>
    have hkey : other.op.key = view.op.key := by simpa using List.find?_some hf
    rw [List.inj_on_of_nodup_map hd (List.mem_of_find?_eq_some hf) h hkey]

namespace Write

theorem held_apply {w : Write} (hw : w.Sound) (s : Stores) (entityId : EntityId) :
    (w.apply s).held entityId =
      match writerOf w.streams entityId with
      | none => s.held entityId
      | some c => applyStream (s.held entityId) c := by
  simp only [Stores.held, apply, applyWrite]
  rw [get_applyStreams hw.sorted]
  cases writerOf w.streams entityId <;> rfl

theorem views_apply {w : Write} (hw : w.Sound) (s : Stores) (key : ViewKey) :
    (w.apply s).views[key]? =
      match w.views.find? (fun view => view.op.key == key) with
      | none => s.views[key]?
      | some view => view.op.result :=
  get_applyViews hw.views.1 s.views key

theorem outcomes_apply (w : Write) (s : Stores) (commandId : CommandId) :
    (w.apply s).outcomes[commandId]? =
      match w.outcome with
      | none => s.outcomes[commandId]?
      | some outcome =>
        if commandId = outcome.commandId then some outcome else s.outcomes[commandId]? := by
  simp only [apply, applyWrite]
  cases w.outcome with
  | none => rfl
  | some outcome => exact OrdMap.get_insert _ _ _ _

end Write

structure SameData (s s' : Stores) : Prop where
  streams : s'.streams = s.streams
  views : s'.views = s.views
  outcomes : s'.outcomes = s.outcomes

theorem SameData.refl (s : Stores) : SameData s s := ⟨rfl, rfl, rfl⟩

theorem SameData.held {s s' : Stores} (h : SameData s s') (entityId : EntityId) :
    s'.held entityId = s.held entityId := by
  unfold Stores.held
  rw [h.streams]

theorem sameData_checkManifest (E : Env) (r : MemRepository) :
    SameData r.stores (r.checkManifest E).2.stores := by
  rw [MemRepository.checkManifest_stores]
  exact ⟨rfl, rfl, rfl⟩

end EventStore
