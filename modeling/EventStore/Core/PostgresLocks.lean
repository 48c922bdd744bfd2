import EventStore.Core.PostgresNames
import EventStore.Lib.Encodings
import EventStore.Lib.Locking

/-!
The advisory locks of each kind of PostgreSQL transaction, in the order it takes them. A lock's
key is a space and a hash of the name that is locked.
-/
namespace EventStore.Postgres

open Encodings Locking

variable {κ : Type*}

def featuresLockKey (events : String) : String := toAsciiLowercase events ++ ":features"

def rebuildLockKey (events : String) : String := toAsciiLowercase events ++ ":rebuild"

def entitySpace : Nat := 1702261760

def featuresSpace : Nat := 1702261761

def schemaSpace : Nat := 1702261762

def entityLock (hash : String → κ) (entityId : String) : Lock (Nat × κ) :=
  ⟨(entitySpace, hash entityId), .exclusive⟩

def featuresLockShared (hash : String → κ) (key : String) : Lock (Nat × κ) :=
  ⟨(featuresSpace, hash key), .shared⟩

def featuresLockExclusive (hash : String → κ) (key : String) : Lock (Nat × κ) :=
  ⟨(featuresSpace, hash key), .exclusive⟩

/-- The transactions that take advisory locks, with the events table of their log. -/
inductive Transaction
  | writeCommit (events : String) (written fenced : List String)
  | putSnapshot (events entityId : String)
  | compactBelow (events : String)
  | writeCompaction (events : String) (epoch : Bool)
  | declare (events : String)
  | rebuildLifecycle (events : String)
  | ensureSchema (events : String)

def touched (written fenced : List String) : List String :=
  compact ((written ++ fenced).insertionSort (· ≤ ·))

def Transaction.locks (hash : String → κ) : Transaction → List (Lock (Nat × κ))
  | .writeCommit events written fenced =>
    (touched written fenced).map (entityLock hash) ++
      [featuresLockShared hash (featuresLockKey events),
        featuresLockShared hash (rebuildLockKey events)]
  | .putSnapshot events entityId =>
    [entityLock hash entityId, featuresLockShared hash (featuresLockKey events)]
  | .compactBelow events => [featuresLockShared hash (featuresLockKey events)]
  | .writeCompaction events epoch =>
    if epoch then [featuresLockShared hash (rebuildLockKey events)] else []
  | .declare events => [featuresLockExclusive hash (featuresLockKey events)]
  | .rebuildLifecycle events => [featuresLockExclusive hash (rebuildLockKey events)]
  | .ensureSchema events => [⟨(schemaSpace, hash (toAsciiLowercase events)), .exclusive⟩]

def Transaction.streams : Transaction → List String
  | .writeCommit _ written fenced => touched written fenced
  | _ => []

end EventStore.Postgres
