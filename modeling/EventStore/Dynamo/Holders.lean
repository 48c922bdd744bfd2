import EventStore.Dynamo.FenceRuns

/-!
The DynamoDB fence as a lock. The log of the requests that applied says who held it when: callers
whose answers were lost, and whose requests land late, do not act beside a later holder.
-/
namespace EventStore

open Result

namespace DynamoWorld

variable {ι : Type}

/-- The holder that a log leaves: begins hand the lock over, ends and forced releases free it. -/
def holderAfter (first : Option (String × Int)) (log : List (FenceEntry ι)) :
    Option (String × Int) :=
  log.foldl (fun holder entry =>
    match entry.call, entry.result with
    | .begin _ _, .lease lease => some (lease.owner, lease.generation)
    | .finish _, _ | .forceRelease _, _ => none
    | _, _ => holder) first

/-- What a lock that excludes asks of a request that applied after others. -/
def Excludes (first : Option (String × Int)) (before : List (FenceEntry ι))
    (entry : FenceEntry ι) : Prop :=
  match entry.call with
  | .begin owner _ => ∃ lease, entry.result = .lease lease ∧ lease.owner = owner ∧
      ∀ earlier ∈ before, ∀ lease', earlier.result = .lease lease' →
        lease'.generation < lease.generation
  | .renew lease _ | .finish lease | .write lease _ =>
    holderAfter first before = some (lease.owner, lease.generation)
  | .forceRelease owner => ∃ generation, holderAfter first before = some (owner, generation)
  | .commit _ => holderAfter first before = none

structure Held (first : Option (String × Int)) (s : Stores) (log : List (FenceEntry ι)) :
    Prop where
  fenced : s.rebuild.Fenced
  holder : s.rebuild.holder = holderAfter first log
  granted : ∀ entry ∈ log, ∀ lease, entry.result = .lease lease →
    lease.generation ≤ s.rebuild.generation.value

variable {first : Option (String × Int)} {s s' : Stores} {log : List (FenceEntry ι)}

theorem Held.of_heldBy (h : Held first s log) {lease : RebuildLease}
    (hheld : s.rebuild.heldBy lease = true) :
    holderAfter first log = some (lease.owner, lease.generation) := by
  obtain ⟨lock, hlock, howner, hgeneration⟩ := RebuildState.heldBy_iff.mp hheld
  rw [← h.holder, RebuildState.holder, hlock, Option.map_some, howner, hgeneration]

theorem Held.append (h : Held first s log) {entry : FenceEntry ι} (hfenced : s'.rebuild.Fenced)
    (hle : s.rebuild.generation.value ≤ s'.rebuild.generation.value)
    (hholder : s'.rebuild.holder = holderAfter first (log ++ [entry]))
    (hlease : ∀ lease, entry.result = .lease lease →
      lease.generation ≤ s'.rebuild.generation.value) :
    Held first s' (log ++ [entry]) := by
  refine ⟨hfenced, hholder, fun other hother lease hresult => ?_⟩
  obtain hother | hother := List.mem_append.mp hother
  · exact (h.granted other hother lease hresult).trans hle
  · exact hlease lease (List.mem_singleton.mp hother ▸ hresult)

theorem Held.changed (h : Held first s log) {change : FenceChange}
    (hallowed : change.Allowed s.rebuild) {entry : FenceEntry ι}
    (hholder : (change.apply s.rebuild).holder = holderAfter first (log ++ [entry]))
    (hlease : ∀ lease, entry.result = .lease lease →
      lease.generation ≤ (change.apply s.rebuild).generation.value) :
    Held first { s with rebuild := change.apply s.rebuild } (log ++ [entry]) :=
  h.append (FenceChange.fenced_apply h.fenced hallowed) (FenceChange.generation_le_apply hallowed)
    hholder hlease

theorem Held.step (h : Held first s log) (author : ι) {call : DynamoCall} {now : Int}
    {result : FenceResult} (hcall : call.inMemory s now = .ok (result, s')) :
    Excludes first log ⟨author, call, result, .ok result⟩ ∧
      Held first s' (log ++ [⟨author, call, result, .ok result⟩]) := by
  cases call with
  | begin owner length =>
    obtain ⟨⟨lease, rebuild⟩, hbegin, heq⟩ := bind_eq_ok.mp hcall
    cases heq
    obtain ⟨howner, hallowed, rfl⟩ := RebuildState.beginRebuild_ok hbegin
    have hlt := (FenceChange.begun_generation hallowed).1
    refine ⟨⟨lease, rfl, howner, fun earlier hearlier lease' hresult =>
      (h.granted earlier hearlier lease' hresult).trans_lt hlt⟩, h.changed hallowed ?_ ?_⟩
    · simp [holderAfter, RebuildState.holder, FenceChange.apply, RebuildState.acquired]
    · rintro - ⟨⟩
      exact le_rfl
  | renew lease extend =>
    obtain ⟨⟨lease', rebuild⟩, hrenew, heq⟩ := bind_eq_ok.mp hcall
    cases heq
    obtain ⟨leaseExpiresAt, rfl, hallowed, rfl⟩ := RebuildState.renewRebuild_ok hrenew
    refine ⟨h.of_heldBy hallowed, h.changed hallowed ?_ ?_⟩
    · simpa [holderAfter, RebuildState.holder, FenceChange.apply, Function.comp_def] using h.holder
    · rintro - ⟨⟩
      exact (h.fenced.generation_of_heldBy hallowed).1.le
  | finish lease =>
    obtain ⟨⟨generation, rebuild⟩, hend, heq⟩ := bind_eq_ok.mp hcall
    cases heq
    obtain ⟨hallowed, rfl⟩ := RebuildState.endRebuild_ok hend
    refine ⟨h.of_heldBy hallowed, h.changed hallowed ?_ (by rintro _ ⟨⟩)⟩
    simp [holderAfter, RebuildState.holder, FenceChange.apply]
  | forceRelease owner =>
    obtain ⟨⟨generation, rebuild⟩, hforce, heq⟩ := bind_eq_ok.mp hcall
    cases heq
    obtain ⟨hallowed, rfl⟩ := RebuildState.forceReleaseRebuild_ok hforce
    refine ⟨?_, h.changed hallowed ?_ (by rintro _ ⟨⟩)⟩
    · cases hlock : s.rebuild.lock with
      | none => simp [FenceChange.Allowed, hlock] at hallowed
      | some lock =>
        obtain rfl : lock.owner = owner := by simpa [FenceChange.Allowed, hlock] using hallowed
        exact ⟨lock.generation, by rw [← h.holder, RebuildState.holder, hlock, Option.map_some]⟩
    · simp [holderAfter, RebuildState.holder, FenceChange.apply]
  | write lease views =>
    obtain ⟨s'', hwrite, heq⟩ := bind_eq_ok.mp hcall
    cases heq
    obtain ⟨hheld, rfl⟩ := Stores.writeRebuildViews_ok hwrite
    refine ⟨h.of_heldBy hheld, h.append h.fenced le_rfl ?_ (by rintro _ ⟨⟩)⟩
    simpa [holderAfter] using h.holder
  | commit views =>
    obtain ⟨-, hcall⟩ := seq_eq_ok.mp hcall
    obtain ⟨hrebuild, hcall⟩ := seq_eq_ok.mp hcall
    obtain ⟨-, hcall⟩ := seq_eq_ok.mp hcall
    cases hcall
    have hfree := refuse_eq_ok.mp hrebuild
    refine ⟨h.holder.symm.trans ?_, h.append h.fenced le_rfl ?_ (by rintro _ ⟨⟩)⟩
    · simp_all [RebuildState.holder]
    · simpa [holderAfter] using h.holder

/-- While requests answer as the in-memory store's calls do, the lock excludes. -/
def Exclusive (first : Option (String × Int)) (w : DynamoWorld ι) : Prop :=
  (∀ entry ∈ w.log, entry.inMemory = .ok entry.result) → Held first w.memory w.log ∧
    ∀ k entry, w.log[k]? = some entry → Excludes first (w.log.take k) entry

theorem Exclusive.applied {w : DynamoWorld ι} (h : w.Exclusive first) (author : ι)
    (call : DynamoCall) (now : Int) (request : FenceSend) (table : Table) :
    (w.applied author call now request table).Exclusive first := by
  intro hlog
  obtain ⟨hheld, hbefore⟩ := h fun entry hentry => hlog entry (List.mem_append_left _ hentry)
  have hanswer := hlog _ (List.mem_append_right _ List.mem_cons_self)
  obtain ⟨⟨result, s'⟩, hcall, hresult⟩ := map_eq_ok.mp hanswer
  obtain rfl : result = request.result := hresult
  obtain ⟨hentry, hheld'⟩ := hheld.step author hcall
  have hworld : w.applied author call now request table =
      { w with table, memory := s'
               log := w.log ++ [⟨author, call, request.result, .ok request.result⟩] } := by
    simp only [DynamoWorld.applied, hcall]
    rfl
  rw [hworld]
  refine ⟨hheld', fun k entry hk => ?_⟩
  obtain hk' | hk' := lt_or_ge k w.log.length
  · rw [List.getElem?_append_left hk'] at hk
    rw [List.take_append_of_le_length hk'.le]
    exact hbefore k entry hk
  · rw [List.getElem?_append_right hk', List.getElem?_singleton] at hk
    split at hk
    · rename_i hzero
      obtain rfl : k = w.log.length := by omega
      cases hk
      rw [List.take_left]
      exact hentry
    · cases hk

/-- In every run the lock excludes: begins get rising generations, a lease renews, writes and ends
only while it is the one last begun, and commits apply only between leases. -/
theorem leases_exclude [DecidableEq ι] (calls : ι → DynamoCall) {table : Table} {memory : Stores}
    (hstart : Represents table memory) {w : DynamoWorld ι}
    {threads : ι → DynamoProgram (Except Error FenceResult)}
    (hreach : Pool.Reaches Act Lands (start table memory, fun i => (calls i).program)
      (w, threads)) (k : Nat) (entry : FenceEntry ι) (hentry : w.log[k]? = some entry) :
    Excludes memory.rebuild.holder (w.log.take k) entry := by
  have hfirst : (start table memory : DynamoWorld ι).Exclusive memory.rebuild.holder := fun _ =>
    ⟨⟨hstart.fenced, rfl, List.forall_mem_nil _⟩, by simp [start]⟩
  have hexclusive : w.Exclusive memory.rebuild.holder := by
    refine Pool.invariant ?_ ?_ hreach hfirst
    · intro i s a answer s' hs hact
      cases hact with
      | applies call now request table _ => exact hs.applied i call now request table
      | _ => exact hs
    · intro s s' hs hlands
      cases hlands with
      | lands author call now request _ table _ => exact hs.applied author call now request table
  have hrefines := (refines_of_reaches calls hstart hreach).1
  exact (hexclusive hrefines.answered).2 k entry hentry

/-- The worker's end, after its begin alone. -/
theorem worker_excludes : ∃ entry, workerRun.1.log[1]? = some entry ∧
    Excludes none (workerRun.1.log.take 1) entry := by
  have hreach : Pool.Reaches Act Lands (start (fun _ => ∅) Stores.empty, fun i =>
      (workerCalls i).program) (workerRun.1, workerRun.2) :=
    Pool.reaches_turns act_serve _ ([0, 0, 0, 0, 1, 2, 3] : List (Fin 4))
  have hlength : 1 < workerRun.1.log.length := by decide +kernel
  have hentry := List.getElem?_eq_getElem hlength
  exact ⟨_, hentry, leases_exclude workerCalls represents_empty hreach 1 _ hentry⟩

end DynamoWorld

end EventStore
