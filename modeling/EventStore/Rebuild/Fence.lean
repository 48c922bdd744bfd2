import EventStore.Core.Rebuild
import EventStore.Memory.Effects

/-!
What the calls of the rebuild fence can do to it. A call that succeeds makes one of four changes,
and every property follows from what these keep: a lock is held only in the odd generation its
token names, and the generation grows with every change but a renewal.
-/
namespace EventStore

open Result

/-- What a successful call changes. A begin is also the generation it was decided on. -/
inductive FenceChange where
  | begun (observed : Int) (lease : RebuildLease)
  | renewed (lease : RebuildLease) (leaseExpiresAt : Int)
  | ended (lease : RebuildLease)
  | forceReleased (owner : String)
deriving DecidableEq

namespace FenceChange

def moves : FenceChange → Bool
  | .renewed _ _ => false
  | _ => true

def apply (s : RebuildState) : FenceChange → RebuildState
  | .begun _ lease => s.acquired lease
  | .renewed _ leaseExpiresAt => { s with lock := s.lock.map ({ · with leaseExpiresAt }) }
  | .ended _ => ⟨⟨s.generation.value + 1, false⟩, none⟩
  | .forceReleased _ => ⟨⟨s.generation.value + 2, true⟩, none⟩

/-- When the change can be made; a begin checks the generation alone. -/
def Allowed (s : RebuildState) : FenceChange → Prop
  | .begun observed lease => s.generation.value = observed ∧
      lease.generation = observed + if s.generation.isSettled then 1 else 2
  | .renewed lease _ | .ended lease => s.heldBy lease = true
  | .forceReleased owner => s.lock.any (·.owner == owner) = true

end FenceChange

/-- A lock is held in its own odd generation; without one an odd generation is released. -/
structure RebuildState.Fenced (s : RebuildState) : Prop where
  locked : ∀ lock, s.lock = some lock →
    s.generation.isSettled = false ∧ lock.generation = s.generation.value
  free : s.lock = none → s.generation.isSettled = false → s.generation.forceReleased = true

variable {lease : RebuildLease} {s : RebuildState}

namespace RebuildState

theorem fenced_empty : RebuildState.empty.Fenced :=
  ⟨fun _ h => (nomatch h), fun _ h => (nomatch h)⟩

theorem heldBy_iff :
    s.heldBy lease = true ↔
      ∃ lock, s.lock = some lock ∧ lock.owner = lease.owner ∧
        lock.generation = lease.generation := by
  unfold heldBy RebuildLease.holds
  cases s.lock <;> simp

theorem Fenced.generation_of_heldBy (h : s.Fenced) (hheld : s.heldBy lease = true) :
    lease.generation = s.generation.value ∧ s.generation.isSettled = false := by
  obtain ⟨lock, hlock, -, hgeneration⟩ := heldBy_iff.mp hheld
  obtain ⟨hodd, htoken⟩ := h.locked lock hlock
  exact ⟨hgeneration.symm.trans htoken, hodd⟩

end RebuildState

theorem RebuildGeneration.isSettled_iff {g : RebuildGeneration} :
    g.isSettled = true ↔ g.value % 2 = 0 := by
  simp [RebuildGeneration.isSettled]

theorem RebuildGeneration.not_isSettled_iff {g : RebuildGeneration} :
    g.isSettled = false ↔ g.value % 2 = 1 := by
  rw [← Bool.not_eq_true, isSettled_iff]
  omega

namespace FenceChange

variable {s : RebuildState} {change : FenceChange}

theorem begun_generation {observed : Int} (h : (begun observed lease).Allowed s) :
    observed < lease.generation ∧ lease.generation % 2 = 1 := by
  obtain ⟨rfl, hlease⟩ := h
  by_cases hsettled : s.generation.isSettled = true
  · have := RebuildGeneration.isSettled_iff.mp hsettled
    rw [if_pos hsettled] at hlease
    omega
  · have := RebuildGeneration.not_isSettled_iff.mp (by simpa using hsettled)
    rw [if_neg hsettled] at hlease
    omega

theorem fenced_apply (hs : s.Fenced) (h : change.Allowed s) : (change.apply s).Fenced := by
  cases change with
  | begun observed lease =>
    refine ⟨fun lock hlock => ?_, fun hlock => nomatch hlock⟩
    obtain rfl := Option.some.inj hlock
    exact ⟨RebuildGeneration.not_isSettled_iff.mpr (begun_generation h).2, rfl⟩
  | renewed lease leaseExpiresAt =>
    refine ⟨fun lock hlock => ?_, fun hlock => hs.free (Option.map_eq_none_iff.mp hlock)⟩
    obtain ⟨old, hold, rfl⟩ := Option.map_eq_some_iff.mp hlock
    exact hs.locked old hold
  | ended lease =>
    obtain ⟨-, hodd⟩ := hs.generation_of_heldBy h
    refine ⟨fun lock hlock => (nomatch hlock), fun _ heven => ?_⟩
    rw [RebuildGeneration.not_isSettled_iff] at hodd heven
    simp only [apply] at heven
    omega
  | forceReleased owner => exact ⟨fun lock hlock => (nomatch hlock), fun _ _ => rfl⟩

theorem generation_lt_apply (h : change.Allowed s) (hmoves : change.moves = true) :
    s.generation.value < (change.apply s).generation.value := by
  cases change with
  | begun observed lease =>
    have hlt := (begun_generation h).1
    rwa [← h.1] at hlt
  | renewed lease leaseExpiresAt => cases hmoves
  | ended lease => exact Int.lt_succ _
  | forceReleased owner =>
    simp only [apply]
    omega

theorem generation_of_not_moves (hmoves : change.moves = false) :
    (change.apply s).generation = s.generation := by
  cases change with
  | renewed lease leaseExpiresAt => rfl
  | _ => cases hmoves

theorem generation_le_apply (h : change.Allowed s) :
    s.generation.value ≤ (change.apply s).generation.value := by
  by_cases hmoves : change.moves = true
  · exact (generation_lt_apply h hmoves).le
  · rw [generation_of_not_moves (by simpa using hmoves)]

end FenceChange

def Error.isStateInvalid : Error → Bool
  | .rebuildStateInvalid _ => true
  | _ => false

namespace RebuildState

variable {s s' : RebuildState} {now : Int} {lease lease' : RebuildLease}

theorem increment_of_decide {plan : Plan} (h : Plan.decide s now = .ok plan) :
    plan.increment = if s.generation.isSettled then 1 else 2 := by
  unfold Plan.decide at h
  split at h <;> split at h
  · cases h
    simp [*]
  · split at h
    · cases h
      simp [*]
    · cases h
  · cases h
  · split at h
    · cases h
    · cases h
      simp [*]

variable {owner : String}

theorem beginRebuild_ok {length : Duration}
    (h : s.beginRebuild now owner length = .ok (lease, s')) :
    lease.owner = owner ∧ (FenceChange.begun s.generation.value lease).Allowed s ∧
      s' = (FenceChange.begun s.generation.value lease).apply s := by
  obtain ⟨seconds, -, h⟩ := bind_eq_ok.mp h
  obtain ⟨plan, hplan, h⟩ := bind_eq_ok.mp h
  cases h
  refine ⟨rfl, ⟨rfl, ?_⟩, rfl⟩
  rw [← increment_of_decide hplan]
  rfl

theorem renewRebuild_ok {extend : Duration}
    (h : s.renewRebuild now lease extend = .ok (lease', s')) :
    ∃ leaseExpiresAt, lease' = { lease with leaseExpiresAt } ∧
      (FenceChange.renewed lease leaseExpiresAt).Allowed s ∧
      s' = (FenceChange.renewed lease leaseExpiresAt).apply s := by
  obtain ⟨seconds, -, h⟩ := bind_eq_ok.mp h
  simp only at h
  split at h
  · cases h
  · rename_i lock hlock
    cases h
    obtain ⟨hlock, hholds⟩ := Option.filter_eq_some_iff.mp hlock
    refine ⟨_, rfl, ?_, ?_⟩
    · simp [FenceChange.Allowed, heldBy, hlock, hholds]
    · simp [FenceChange.apply, hlock]

variable {generation : RebuildGeneration}

theorem release_ok {held : RebuildLock → Bool} {increment : Int} {forceReleased : Bool}
    (h : s.release owner held increment forceReleased = .ok (generation, s')) :
    s.lock.any held = true ∧ generation = ⟨s.generation.value + increment, forceReleased⟩ ∧
      s' = ⟨generation, none⟩ := by
  unfold release at h
  split at h
  · rename_i hany
    cases h
    exact ⟨hany, rfl, rfl⟩
  · cases h

theorem endRebuild_ok (h : s.endRebuild lease = .ok (generation, s')) :
    (FenceChange.ended lease).Allowed s ∧ s' = (FenceChange.ended lease).apply s := by
  obtain ⟨-, h⟩ := seq_eq_ok.mp h
  obtain ⟨hheld, rfl, rfl⟩ := release_ok h
  exact ⟨hheld, rfl⟩

theorem forceReleaseRebuild_ok (h : s.forceReleaseRebuild owner = .ok (generation, s')) :
    (FenceChange.forceReleased owner).Allowed s ∧
      s' = (FenceChange.forceReleased owner).apply s := by
  obtain ⟨-, h⟩ := seq_eq_ok.mp h
  obtain ⟨hheld, rfl, rfl⟩ := release_ok h
  exact ⟨hheld, rfl⟩

theorem checkLease_avoids (owner : String) (length : Duration) :
    Avoids Error.isStateInvalid (checkLease owner length) := by
  simp [checkLease, checkRebuildOwner, leaseSeconds, Error.isStateInvalid]

theorem Fenced.decide_avoids (h : s.Fenced) (now : Int) :
    Avoids Error.isStateInvalid (Plan.decide s now) := by
  unfold Plan.decide
  split
  · rename_i hlock
    split
    · simp
    · rename_i hodd
      simp [h.free hlock (by simpa using hodd)]
  · rename_i lock hlock
    rw [if_neg (by simp [(h.locked lock hlock).1])]
    split <;> simp [Error.isStateInvalid]

/-- No begin reports an invalid state of a fence that keeps its invariant. -/
theorem Fenced.beginRebuild_avoids (h : s.Fenced) (now : Int) (owner : String)
    (length : Duration) : Avoids Error.isStateInvalid (s.beginRebuild now owner length) := by
  simp [beginRebuild, checkLease_avoids, h.decide_avoids]

end RebuildState

inductive FenceCall where
  | begin (now : Int) (owner : String) (lease : Duration)
  | renew (now : Int) (lease : RebuildLease) (extend : Duration)
  | finish (lease : RebuildLease)
  | forceRelease (owner : String)

namespace FenceCall

def run (s : RebuildState) : FenceCall → Except Error (Option RebuildLease × RebuildState)
  | .begin now owner lease =>
    (s.beginRebuild now owner lease).map fun (lease, s') => (some lease, s')
  | .renew now lease extend =>
    (s.renewRebuild now lease extend).map fun (lease, s') => (some lease, s')
  | .finish lease => (s.endRebuild lease).map fun (_, s') => (none, s')
  | .forceRelease owner => (s.forceReleaseRebuild owner).map fun (_, s') => (none, s')

def moves : FenceCall → Bool
  | .renew _ _ _ => false
  | _ => true

theorem run_ok {s' : RebuildState} {call : FenceCall} {returned : Option RebuildLease}
    (h : call.run s = .ok (returned, s')) :
    ∃ change : FenceChange, change.Allowed s ∧ s' = change.apply s ∧
      change.moves = call.moves ∧ ∀ lease, returned = some lease → s'.heldBy lease = true := by
  cases call with
  | begin now owner length =>
    obtain ⟨⟨lease, s'⟩, hbegin, heq⟩ := map_eq_ok.mp h
    cases heq
    obtain ⟨-, hallowed, rfl⟩ := RebuildState.beginRebuild_ok hbegin
    refine ⟨_, hallowed, rfl, rfl, ?_⟩
    rintro - ⟨⟩
    exact RebuildState.heldBy_iff.mpr ⟨_, rfl, rfl, rfl⟩
  | renew now lease extend =>
    obtain ⟨⟨lease', s'⟩, hrenew, heq⟩ := map_eq_ok.mp h
    cases heq
    obtain ⟨leaseExpiresAt, rfl, hallowed, rfl⟩ := RebuildState.renewRebuild_ok hrenew
    refine ⟨_, hallowed, rfl, rfl, ?_⟩
    rintro - ⟨⟩
    obtain ⟨lock, hlock, howner, hgeneration⟩ := RebuildState.heldBy_iff.mp hallowed
    exact RebuildState.heldBy_iff.mpr ⟨_, Option.map_eq_some_iff.mpr ⟨lock, hlock, rfl⟩,
      howner, hgeneration⟩
  | finish lease =>
    obtain ⟨⟨generation, s'⟩, hend, heq⟩ := map_eq_ok.mp h
    cases heq
    obtain ⟨hallowed, rfl⟩ := RebuildState.endRebuild_ok hend
    exact ⟨_, hallowed, rfl, rfl, fun _ h => nomatch h⟩
  | forceRelease owner =>
    obtain ⟨⟨generation, s'⟩, hforce, heq⟩ := map_eq_ok.mp h
    cases heq
    obtain ⟨hallowed, rfl⟩ := RebuildState.forceReleaseRebuild_ok hforce
    exact ⟨_, hallowed, rfl, rfl, fun _ h => nomatch h⟩

end FenceCall

def RebuildLease.CanAct (lease : RebuildLease) (s : RebuildState) : Prop :=
  (∃ now extend r, s.renewRebuild now lease extend = .ok r) ∨
  (∃ r, s.endRebuild lease = .ok r) ∨
  ∃ (stores : Stores) (now : Int) (views : List ProjectedView) (r : Stores),
    stores.rebuild = s ∧ stores.writeRebuildViews now lease views = .ok r

/-- A write is guarded by an unexpired lease, and changes view rows only. -/
theorem Stores.writeRebuildViews_ok {s s' : Stores} {now : Int} {views : List ProjectedView}
    (h : s.writeRebuildViews now lease views = .ok s') :
    s.rebuild.heldBy lease = true ∧ s' = { s with views := applyViews s.views views } := by
  obtain ⟨-, h⟩ := seq_eq_ok.mp h
  obtain ⟨-, h⟩ := seq_eq_ok.mp h
  obtain ⟨hguard, h⟩ := seq_eq_ok.mp h
  obtain ⟨-, h⟩ := seq_eq_ok.mp h
  cases h
  refine ⟨?_, rfl⟩
  rw [RebuildState.heldBy_iff]
  cases hlock : s.rebuild.lock with
  | none => simp [hlock] at hguard
  | some lock =>
    simp only [hlock, Option.any_some, refuse_eq_ok, Bool.not_eq_true', Bool.not_eq_false,
      Bool.and_eq_true, RebuildLease.holds, beq_iff_eq] at hguard
    exact ⟨lock, rfl, hguard.1⟩

theorem RebuildLease.CanAct.heldBy (h : lease.CanAct s) : s.heldBy lease = true := by
  rcases h with ⟨now, extend, ⟨lease', s'⟩, h⟩ | ⟨⟨generation, s'⟩, h⟩ |
    ⟨stores, now, views, r, rfl, h⟩
  · obtain ⟨_, _, hheld, _⟩ := RebuildState.renewRebuild_ok h
    exact hheld
  · exact (RebuildState.endRebuild_ok h).1
  · exact (Stores.writeRebuildViews_ok h).1

/-- A fence with every lease that was ever returned. -/
structure FenceRun where
  state : RebuildState
  returned : List RebuildLease

namespace FenceRun

def start : FenceRun := ⟨.empty, []⟩

/-- A call that fails leaves the fence as it was. -/
def step (f : FenceRun) (call : FenceCall) : FenceRun :=
  match call.run f.state with
  | .ok (returned, state) => ⟨state, f.returned ++ returned.toList⟩
  | .error _ => f

def run (f : FenceRun) (calls : List FenceCall) : FenceRun := calls.foldl step f

structure Kept (f : FenceRun) : Prop where
  fenced : f.state.Fenced
  returned : ∀ lease ∈ f.returned, lease.generation ≤ f.state.generation.value

theorem kept_start : start.Kept := ⟨RebuildState.fenced_empty, fun _ h => nomatch h⟩

variable {f : FenceRun}

theorem Kept.step (h : f.Kept) (call : FenceCall) :
    (f.step call).Kept ∧ f.state.generation.value ≤ (f.step call).state.generation.value := by
  unfold FenceRun.step
  split
  · rename_i returned state hrun
    obtain ⟨change, hallowed, rfl, -, hlease⟩ := FenceCall.run_ok hrun
    have hfenced := FenceChange.fenced_apply h.fenced hallowed
    have hle := FenceChange.generation_le_apply hallowed
    refine ⟨⟨hfenced, fun lease hmem => ?_⟩, hle⟩
    rcases List.mem_append.mp hmem with hmem | hmem
    · exact (h.returned lease hmem).trans hle
    · exact (hfenced.generation_of_heldBy (hlease lease (Option.mem_toList.mp hmem))).1.le
  · exact ⟨h, le_rfl⟩

theorem Kept.run (h : f.Kept) (calls : List FenceCall) :
    (f.run calls).Kept ∧ f.state.generation.value ≤ (f.run calls).state.generation.value := by
  induction calls generalizing f with
  | nil => exact ⟨h, le_rfl⟩
  | cons call calls ih =>
    obtain ⟨hstep, hle⟩ := h.step call
    obtain ⟨hrun, hle'⟩ := ih hstep
    exact ⟨hrun, hle.trans hle'⟩

theorem Kept.not_canAct (h : f.Kept) (hlt : lease.generation < f.state.generation.value) :
    ¬lease.CanAct f.state := by
  intro hact
  have := (h.fenced.generation_of_heldBy hact.heldBy).1
  omega

end FenceRun

/-- A commit applies nothing while the generation is odd. -/
theorem Request.sameData_of_unsettled (E : Env) (r : MemRepository) (q : Request)
    (h : r.stores.rebuild.generation.isSettled = false) :
    SameData r.stores (q.run E r).2.stores := by
  rw [Request.run_eq]
  split
  · exact .refl _
  · exact .refl _
  · rename_i w hplan
    cases hperform : r.perform E w with
    | mk result r' =>
      cases result with
      | error error =>
        obtain rfl := MemRepository.perform_eq_error hperform
        exact sameData_checkManifest E r
      | ok u =>
        have hrebuild := (MemRepository.perform_eq_ok hperform).1.rebuild
        simp [checkRebuild, h] at hrebuild

/-- The fence over every sequence of calls: its invariant, growing generations, at most one lease
that can act, none that acts again, and no commit in an odd generation. -/
theorem fence_invariant (calls : List FenceCall) :
    let f := FenceRun.start.run calls
    (∀ lock, f.state.lock = some lock →
      f.state.generation.value % 2 = 1 ∧ lock.generation = f.state.generation.value) ∧
    (f.state.lock = none → f.state.generation.value % 2 = 0 ∨
      f.state.generation.value % 2 = 1 ∧ f.state.generation.forceReleased = true) ∧
    (∀ call : FenceCall, ∀ returned s', call.moves = true →
      call.run f.state = .ok (returned, s') →
      f.state.generation.value < s'.generation.value) ∧
    (∀ now owner length message,
      f.state.beginRebuild now owner length ≠ .error (.rebuildStateInvalid message)) ∧
    (∀ lease ∈ f.returned, ∀ lease' ∈ f.returned, lease.CanAct f.state →
      lease'.CanAct f.state → lease.owner = lease'.owner ∧ lease.generation = lease'.generation) ∧
    (∀ call : FenceCall, ∀ returned s', call.moves = true →
      call.run f.state = .ok (returned, s') →
      ∀ later, ∀ lease ∈ f.returned, ¬lease.CanAct ((f.step call).run later).state) ∧
    (f.state.generation.value % 2 = 1 → ∀ (E : Env) (r : MemRepository) (q : Request),
      r.stores.rebuild = f.state → SameData r.stores (q.run E r).2.stores) := by
  intro f
  have hkept : f.Kept := (FenceRun.kept_start.run calls).1
  have hgrows : ∀ call : FenceCall, ∀ returned s', call.moves = true →
      call.run f.state = .ok (returned, s') →
      f.state.generation.value < s'.generation.value := by
    intro call returned s' hmoves hrun
    obtain ⟨change, hallowed, rfl, hchange, -⟩ := FenceCall.run_ok hrun
    exact FenceChange.generation_lt_apply hallowed (hchange.trans hmoves)
  refine ⟨?_, ?_, hgrows, ?_, ?_, ?_, ?_⟩
  · intro lock hlock
    obtain ⟨hodd, htoken⟩ := hkept.fenced.locked lock hlock
    exact ⟨RebuildGeneration.not_isSettled_iff.mp hodd, htoken⟩
  · intro hlock
    cases hsettled : f.state.generation.isSettled with
    | true => exact .inl (RebuildGeneration.isSettled_iff.mp hsettled)
    | false =>
      exact .inr ⟨RebuildGeneration.not_isSettled_iff.mp hsettled,
        hkept.fenced.free hlock hsettled⟩
  · intro now owner length message herror
    cases hkept.fenced.beginRebuild_avoids now owner length _ herror
  · intro lease _ lease' _ hact hact'
    obtain ⟨lock, hlock, howner, hgeneration⟩ := RebuildState.heldBy_iff.mp hact.heldBy
    obtain ⟨lock', hlock', howner', hgeneration'⟩ := RebuildState.heldBy_iff.mp hact'.heldBy
    obtain rfl : lock = lock' := Option.some.inj (hlock.symm.trans hlock')
    exact ⟨howner.symm.trans howner', hgeneration.symm.trans hgeneration'⟩
  · intro call returned s' hmoves hrun later lease hlease
    have hlt := hgrows call returned s' hmoves hrun
    have hstep : (f.step call).state = s' := by
      simp only [FenceRun.step, hrun]
    obtain ⟨hlater, hle⟩ := (hkept.step call).1.run later
    refine hlater.not_canAct ?_
    have := hkept.returned lease hlease
    rw [hstep] at hle
    omega
  · rintro hodd E r q hr
    refine Request.sameData_of_unsettled E r q ?_
    rw [hr]
    exact RebuildGeneration.not_isSettled_iff.mpr hodd

end EventStore
