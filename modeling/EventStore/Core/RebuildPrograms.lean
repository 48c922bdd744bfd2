import EventStore.Core.Rebuild
import EventStore.Lib.Scripts

/-!
The programs of rebuilds over the fence of a shared store. A worker takes the lock, plans its
operations, writes them in guarded batches and ends; one that fails releases the lock only when it
attempted no write and took it from a settled generation. A reader of derived state reads the
generation before and after.
-/
namespace EventStore

open Result

inductive FenceAsk where
  | generation
  | lock
  | begin (owner : String) (lease : Duration)
  | renew (lease : RebuildLease) (extend : Duration)
  | finish (lease : RebuildLease)
  | forceRelease (owner : String)
  | write (lease : RebuildLease) (views : List ProjectedView)
  | elapsed
  | read
  | project
  /-- The batches a rebuild will write: what its progress observer is told. -/
  | planned (lease : RebuildLease) (batches : List (List ProjectedView))
  | row (key : ViewKey)

def FenceAnswer : FenceAsk → Type
  | .generation => Except Error RebuildGeneration
  | .lock => Except Error (Option RebuildLock)
  | .begin _ _ | .renew _ _ => Except Error RebuildLease
  | .finish _ | .forceRelease _ => Except Error RebuildGeneration
  | .write _ _ | .read => Except Error Unit
  | .elapsed => Bool
  | .project => Except Error (List ProjectedView)
  | .planned _ _ => Unit
  | .row _ => Except Error (Option ViewRow)

abbrev FenceProgram (α : Type) := Script FenceAsk FenceAnswer α

namespace FenceProgram

def rebuildGeneration : FenceProgram (Except Error RebuildGeneration) :=
  Script.ask FenceAsk.generation

def rebuildLock : FenceProgram (Except Error (Option RebuildLock)) := Script.ask FenceAsk.lock

def rebuildState : FenceProgram (Except Error RebuildState) :=
  rebuildGeneration.andThen fun generation =>
    rebuildLock.andThen fun lock => .done (.ok ⟨generation, lock⟩)

def beginRebuild (owner : String) (lease : Duration) : FenceProgram (Except Error RebuildLease) :=
  Script.ask (FenceAsk.begin owner lease)

def renewRebuild (lease : RebuildLease) (extend : Duration) :
    FenceProgram (Except Error RebuildLease) :=
  Script.ask (FenceAsk.renew lease extend)

def endRebuild (lease : RebuildLease) : FenceProgram (Except Error RebuildGeneration) :=
  Script.ask (FenceAsk.finish lease)

def writeRebuildViews (lease : RebuildLease) (views : List ProjectedView) :
    FenceProgram (Except Error Unit) :=
  Script.ask (FenceAsk.write lease views)

def halfElapsed : FenceProgram Bool := Script.ask FenceAsk.elapsed

def readStep : FenceProgram (Except Error Unit) := Script.ask FenceAsk.read

def project : FenceProgram (Except Error (List ProjectedView)) := Script.ask FenceAsk.project

def observePlanned (lease : RebuildLease) (batches : List (List ProjectedView)) :
    FenceProgram Unit :=
  Script.ask (FenceAsk.planned lease batches)

def readRow (key : ViewKey) : FenceProgram (Except Error (Option ViewRow)) :=
  Script.ask (FenceAsk.row key)

end FenceProgram

open FenceProgram

def observeRebuildEpoch : FenceProgram (Except Error RebuildEpoch) :=
  rebuildGeneration.andThen fun generation => .done (RebuildEpoch.observe generation)

def verifyRebuildEpoch (epoch : RebuildEpoch) : FenceProgram (Except Error Unit) :=
  rebuildGeneration.andThen fun generation => .done (epoch.verify generation)

def converted {ε α : Type} (from' : Error → ε) (p : FenceProgram (Except Error α)) :
    FenceProgram (Except ε α) :=
  p.bind fun result => .done (result.mapError from')

/-- Runs a read under the epoch check; a failed read is returned without verifying. -/
def readAtRebuildEpoch {ε T : Type} (from' : Error → ε)
    (read : RebuildEpoch → FenceProgram (Except ε T)) : FenceProgram (Except ε T) :=
  (converted from' observeRebuildEpoch).andThen fun epoch =>
    (read epoch).andThen fun value =>
      (converted from' (verifyRebuildEpoch epoch)).andThen fun _ => .done (.ok value)

/-- An answer, or a lease that may have been taken, with the verdict of a later read. -/
inductive Begun where
  | answered (result : Except Error RebuildLease)
  | unread (lease : RebuildLease) (observed : Int) (error : Error)
  | settled (lease : RebuildLease) (observed : Int) (verdict : Option Bool)

def beginAndSettle (owner : String) (length : Duration) : FenceProgram Begun :=
  (beginRebuild owner length).bind fun
    | .error (.rebuildBeginIndeterminate lease observed _) =>
      rebuildState.bind fun
        | .ok state => .done (.settled lease observed (state.holdsBegun lease observed))
        | .error error => .done (.unread lease observed error)
    | result => .done (.answered result)

structure Held where
  lease : RebuildLease
  fromSettled : Bool

structure RebuildFailure where
  error : Error
  attempted : Nat
  batches : Nat

/-- Takes the lock; only a begin that can no longer apply is begun again. -/
def Held.take (owner : String) (length : Duration) : Nat → FenceProgram (Except Error Held)
  | 0 => .done (.error (.rebuildConflict maxRebuildBeginAttempts))
  | rounds + 1 =>
    rebuildGeneration.andThen fun before =>
      (beginRebuild owner length).bind fun
        | .ok lease => .done (.ok ⟨lease, lease.acquiredFrom before⟩)
        | .error (.rebuildBeginIndeterminate lease observed source) =>
          rebuildState.bind fun state =>
            if state.toOption.any fun state => state.holdsBegun lease observed = some false then
              take owner length rounds
            else .done (.error (.rebuildBeginIndeterminate lease observed source))
        | .error error => .done (.error error)

/-- Ends the run; a failure releases only an untouched lock from a settled generation. -/
def Held.finish (held : Held) : Except RebuildFailure Unit → FenceProgram (Except Error Unit)
  | .ok () => (endRebuild held.lease).andThen fun _ => .done (.ok ())
  | .error failure =>
    if held.fromSettled ∧ failure.attempted = 0 then
      (endRebuild held.lease).bind fun _ => .done (.error failure.error)
    else .done (.error failure.error)

def keepAlive (renew : Duration) (lease : RebuildLease) :
    FenceProgram (Except Error RebuildLease) :=
  halfElapsed.bind fun due =>
    if due then renewRebuild lease renew else .done (.ok lease)

def writeBatches (renew : Duration) (batches : Nat) : List (List ProjectedView) → Nat →
    RebuildLease → FenceProgram (RebuildLease × Except RebuildFailure Unit)
  | [], _, lease => .done (lease, .ok ())
  | batch :: rest, attempted, lease =>
    (keepAlive renew lease).bind fun
      | .error error => .done (lease, .error ⟨error, attempted, batches⟩)
      | .ok lease =>
        (writeRebuildViews lease batch).bind fun
          | .error error => .done (lease, .error ⟨error, attempted + 1, batches⟩)
          | .ok () => writeBatches renew batches rest (attempted + 1) lease

def readLog (renew : Duration) : Nat → RebuildLease →
    FenceProgram (RebuildLease × Except Error Unit)
  | 0, lease => .done (lease, .ok ())
  | steps + 1, lease =>
    readStep.bind fun
      | .error error => .done (lease, .error error)
      | .ok () =>
        (keepAlive renew lease).bind fun
          | .error error => .done (lease, .error error)
          | .ok lease => readLog renew steps lease

def writePlanned (renew : Duration) (views : List ProjectedView) (lease : RebuildLease) :
    FenceProgram (RebuildLease × Except RebuildFailure Unit) :=
  let batches := rebuildBatches views
  (observePlanned lease batches).bind fun _ =>
    writeBatches renew batches.length batches 0 lease

/-- Rebuilds under the lease: every operation is planned before the first is written. -/
def fenced (renew : Duration) (steps : Nat) (lease : RebuildLease) :
    FenceProgram (RebuildLease × Except RebuildFailure Unit) :=
  (keepAlive renew lease).bind fun
    | .error error => .done (lease, .error ⟨error, 0, 0⟩)
    | .ok lease =>
      (readLog renew steps lease).bind fun
        | (lease, .error error) => .done (lease, .error ⟨error, 0, 0⟩)
        | (lease, .ok ()) =>
          project.bind fun
            | .error error => .done (lease, .error ⟨error, 0, 0⟩)
            | .ok views => writePlanned renew views lease

/-- A rebuild of projections, or of the journal, derived before the lock is taken. -/
inductive Rebuild where
  | projections (owner : String) (lease : Duration) (steps : Nat)
  | journal (operations : List ProjectedView) (lease : Duration)

def rebuildOwner : String := "journal-rebuild"

def Rebuild.program : Rebuild → FenceProgram (Except Error Unit)
  | .projections owner lease steps =>
    (Held.take owner lease maxRebuildBeginAttempts).andThen fun held =>
      (fenced lease steps held.lease).bind fun (last, result) =>
        Held.finish { held with lease := last } result
  | .journal operations lease =>
    (Held.take rebuildOwner lease maxRebuildBeginAttempts).andThen fun held =>
      (writePlanned lease operations held.lease).bind fun (last, result) =>
        Held.finish { held with lease := last } result

end EventStore
