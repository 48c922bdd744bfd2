import EventStore.Core.Memory

/-!
The rebuild fence: a lock row with the lease of the rebuild that holds it, and a generation that
is odd while derived rows cannot be trusted. The generation has no 64-bit bound, which only 2^62
transitions could meet.
-/
namespace EventStore

open Result

structure Duration where
  seconds : Nat
  nanos : Nat
deriving DecidableEq

def maxRebuildOwnerBytes : Nat := 512
def maxRebuildViewBatch : Nat := 99
def maxRebuildBeginAttempts : Nat := 8

/-- No generation equals it. -/
def noMatch : Int := -1

/-- A lease is still held at the second it expires. -/
def RebuildLock.isExpired (lock : RebuildLock) (now : Int) : Bool := lock.leaseExpiresAt < now

namespace RebuildLease

def holds (lease : RebuildLease) (lock : RebuildLock) : Bool :=
  lock.owner == lease.owner && lock.generation == lease.generation

def acquiredFrom (lease : RebuildLease) (before : RebuildGeneration) : Bool :=
  before.isSettled && lease.generation == before.value + 1

end RebuildLease

namespace RebuildState

def heldBy (s : RebuildState) (lease : RebuildLease) : Bool := s.lock.any lease.holds

/-- Settles a begin whose result is unknown, from a state read after it failed. -/
def holdsBegun (s : RebuildState) (lease : RebuildLease) (observed : Int) : Option Bool :=
  if s.heldBy lease then some true
  else if s.generation.value ≠ observed then some false
  else none

end RebuildState

structure RebuildEpoch where
  generation : Int
deriving DecidableEq

def unavailable (generation : RebuildGeneration) : Except Error Unit :=
  refuse (!generation.isSettled)
    (.rebuildUnavailable generation.value generation.forceReleased)

namespace RebuildEpoch

def observe (generation : RebuildGeneration) : Except Error RebuildEpoch := do
  unavailable generation
  return ⟨generation.value⟩

def verify (epoch : RebuildEpoch) (generation : RebuildGeneration) : Except Error Unit := do
  unavailable generation
  refuse (generation.value ≠ epoch.generation)
    (.rebuildEpochChanged epoch.generation generation.value)

end RebuildEpoch

def checkRebuildOwner (owner : String) : Except Error Unit := do
  refuse (owner.isEmpty) (.invalidArgument "a rebuild owner must not be empty")
  refuse (maxRebuildOwnerBytes < owner.utf8ByteSize)
    (.invalidArgument ("a rebuild owner is at most " ++ toString maxRebuildOwnerBytes ++
      " bytes, got " ++ toString owner.utf8ByteSize))
  refuse ('\x00' ∈ owner.toList) (.invalidArgument "a rebuild owner must not contain U+0000")

def leaseSeconds (lease : Duration) : Except Error Int := do
  refuse (lease.seconds < 1) (.invalidArgument "a rebuild lease is at least one second")
  let seconds : Int := lease.seconds + if 0 < lease.nanos then 1 else 0
  refuse (maxSequence < seconds) (.invalidArgument "the rebuild lease is too long")
  return seconds

def checkLease (owner : String) (lease : Duration) : Except Error Int := do
  checkRebuildOwner owner
  leaseSeconds lease

def checkRenew (renew : Duration) : Except Error Unit :=
  refuse (renew.seconds < 1)
    (.invalidArgument "a rebuild lease is renewed for at least one second")

inductive PlanKind where
  | acquire
  | acquireForceReleased
  | takeover
deriving DecidableEq

structure Plan where
  kind : PlanKind
  increment : Int
  seenEven : Int
  seenOdd : Int
  observedOwner : Option String

namespace Plan

def decide (s : RebuildState) (now : Int) : Except Error Plan :=
  match s.lock with
  | none =>
    if s.generation.isSettled then .ok ⟨.acquire, 1, s.generation.value, noMatch, none⟩
    else if s.generation.forceReleased then
      .ok ⟨.acquireForceReleased, 2, noMatch, s.generation.value, none⟩
    else
      .error (.rebuildStateInvalid ("generation " ++ toString s.generation.value ++
        " is odd with no lock row and no force-release flag"))
  | some lock =>
    if s.generation.isSettled then
      .error (.rebuildStateInvalid ("a lock row exists for " ++ debug lock.owner ++
        " but generation " ++ toString s.generation.value ++ " is even"))
    else if !lock.isExpired now then
      .error (.rebuildLockHeld lock.owner lock.leaseExpiresAt)
    else .ok ⟨.takeover, 2, noMatch, s.generation.value, some lock.owner⟩

end Plan

def saturatingAdd (now seconds : Int) : Int := min (now + seconds) maxSequence

namespace RebuildState

def planned (s : RebuildState) (plan : Plan) (owner : String) (leaseExpiresAt : Int) :
    RebuildLease :=
  ⟨owner, s.generation.value + plan.increment, leaseExpiresAt⟩

/-- The state a lease is acquired in: an acquire and a takeover leave the force-release
flag as it was. -/
def acquired (s : RebuildState) (lease : RebuildLease) : RebuildState where
  generation := { s.generation with value := lease.generation }
  lock := some ⟨lease.owner, lease.generation, lease.leaseExpiresAt⟩

def beginRebuild (s : RebuildState) (now : Int) (owner : String) (lease : Duration) :
    Except Error (RebuildLease × RebuildState) := do
  let seconds ← checkLease owner lease
  let plan ← Plan.decide s now
  let lease := s.planned plan owner (saturatingAdd now seconds)
  return (lease, s.acquired lease)

def renewRebuild (s : RebuildState) (now : Int) (lease : RebuildLease) (extend : Duration) :
    Except Error (RebuildLease × RebuildState) := do
  let seconds ← checkLease lease.owner extend
  let leaseExpiresAt := saturatingAdd now seconds
  match s.lock.filter lease.holds with
  | none => .error (.rebuildLeaseLost lease.owner)
  | some lock =>
    return ({ lease with leaseExpiresAt }, { s with lock := some { lock with leaseExpiresAt } })

def release (s : RebuildState) (owner : String) (held : RebuildLock → Bool) (increment : Int)
    (forceReleased : Bool) : Except Error (RebuildGeneration × RebuildState) :=
  if s.lock.any held then
    let generation : RebuildGeneration := ⟨s.generation.value + increment, forceReleased⟩
    .ok (generation, ⟨generation, none⟩)
  else .error (.rebuildLeaseLost owner)

def endRebuild (s : RebuildState) (lease : RebuildLease) :
    Except Error (RebuildGeneration × RebuildState) := do
  checkRebuildOwner lease.owner
  s.release lease.owner lease.holds 1 false

def forceReleaseRebuild (s : RebuildState) (owner : String) :
    Except Error (RebuildGeneration × RebuildState) := do
  checkRebuildOwner owner
  s.release owner (·.owner == owner) 2 true

end RebuildState

def checkViewBatch (views : List ProjectedView) : Except Error Unit := do
  refuse (views.isEmpty)
    (.invalidArgument "a rebuild write carries at least one view operation")
  checkViews views
  checkBudget (views.map (fun view => viewOperationSize view.op) ++ [lockCheckSize])

def Stores.writeRebuildViews (s : Stores) (now : Int) (lease : RebuildLease)
    (views : List ProjectedView) : Except Error Stores := do
  checkRebuildOwner lease.owner
  checkViewBatch views
  refuse (!s.rebuild.lock.any fun lock => lease.holds lock && now < lock.leaseExpiresAt)
    (.rebuildLeaseLost lease.owner)
  checkViewConditions s.views views
  return { s with views := applyViews s.views views }

def checkPlanSize (view : ProjectedView) : Except Error Unit :=
  let size := viewOperationSize view.op
  refuse (maxCommitItemBytes < size ∨ maxCommitBytes < size + lockCheckSize)
    (.commitTooLarge 2 (size + lockCheckSize) size)

def batchEnd (taken bytes : Nat) : List ProjectedView → Nat
  | [] => taken
  | view :: views =>
    let size := viewOperationSize view.op
    if maxRebuildViewBatch ≤ taken ∨ (0 < taken ∧ maxCommitBytes < bytes + size) then taken
    else batchEnd (taken + 1) (bytes + size) views

theorem le_batchEnd (taken bytes : Nat) (views : List ProjectedView) :
    taken ≤ batchEnd taken bytes views := by
  induction views generalizing taken bytes with
  | nil => exact le_rfl
  | cons view views ih =>
    simp only [batchEnd]
    split
    · exact le_rfl
    · exact (Nat.le_succ taken).trans (ih _ _)

/-- The first operation always fits: it gets a batch of its own if need be. -/
theorem batchEnd_pos (view : ProjectedView) (views : List ProjectedView) (bytes : Nat) :
    0 < batchEnd 0 bytes (view :: views) := by
  simp only [batchEnd]
  rw [if_neg (by simp [maxRebuildViewBatch])]
  exact le_batchEnd 1 _ views

def rebuildBatches (views : List ProjectedView) : List (List ProjectedView) :=
  match views with
  | [] => []
  | view :: rest =>
    let last := batchEnd 0 lockCheckSize (view :: rest)
    (view :: rest).take last :: rebuildBatches ((view :: rest).drop last)
termination_by views.length
decreasing_by
  have := batchEnd_pos view rest lockCheckSize
  simp only [List.length_drop, List.length_cons]
  omega

end EventStore
