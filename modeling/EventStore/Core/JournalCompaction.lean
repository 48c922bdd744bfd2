import EventStore.Core.Journal
import EventStore.Core.Rebuild

/-!
Journal compaction's stored shapes: a scope's lease, its manifest, its chunks and audit rows, with
the writes of the one call that makes them. Their texts and the digest are a parameter.
-/
namespace EventStore

open Result

def compactionPartitionPrefix : String := "journal-compaction#"
def compactionEntityType : String := "journal-compaction"
def manifestSortKey : String := "MANIFEST"

def compactionPk (scope : Scope) : String := compactionPartitionPrefix ++ scope.text

def checkCompactionRow (scope : Scope) (sortKey : String) (row : ViewRow) :
    Except Error ViewRow := do
  refuse (row.pk ≠ compactionPk scope ∨ row.sk ≠ sortKey ∨ row.entityId ≠ counterOwner ∨
      row.entityType ≠ compactionEntityType)
    (.foreignJournalRow row.pk row.sk row.entityId row.entityType)
  return row

/-- A stored lease: held with an owner and an expiry, or released with neither. -/
structure LeasePayload where
  scope : String
  token : Nat
  owner : Option String
  leaseExpiresAt : Option Int
deriving DecidableEq

structure ManifestPayload where
  scope : String
  checkpoint : Nat
  chunks : List String
deriving DecidableEq

structure ChunkPayload where
  scope : String
  index : Nat
  first : Nat
  through : Nat
  rows : List Bytes
deriving DecidableEq

structure CompactionAudit where
  scope : Scope
  checkpoint : Nat
  digest : String
  chunks : Nat
  deleted : Nat
  owner : String
  token : Nat
  completedAt : Int

/-- The texts of compaction's stored values and the digest of a payload. -/
structure CompactionText extends JournalText where
  lease : LeasePayload → Bytes
  readLease : Bytes → Except String LeasePayload
  manifest : ManifestPayload → Bytes
  readManifest : Bytes → Except String ManifestPayload
  chunkHeader : String → Nat → Nat → Nat → Bytes
  readChunk : Bytes → Except String ChunkPayload
  audit : CompactionAudit → Bytes
  sha256Hex : Bytes → String

def corruptCompaction (scope : Scope) (what why : String) : Error :=
  .invalidRecord ("journal compaction " ++ what ++ " of " ++ scope.text ++ ": " ++ why)

/-- The compacted prefix as the digests of its chunks; the checkpoint is the floor. -/
structure CompactionManifest where
  scope : Scope
  checkpoint : Nat
  chunks : List String
deriving DecidableEq

def isDigest (text : String) : Bool :=
  text.utf8ByteSize == 64 && text.toList.all fun c => c.isDigit || ('a' ≤ c && c ≤ 'f')

namespace CompactionManifest

variable (T : CompactionText)

def decode (scope : Scope) (payload : Bytes) : Except Error CompactionManifest := do
  let stored ← (T.readManifest payload).mapError (corruptCompaction scope "manifest")
  refuse (stored.scope ≠ scope.text)
    (corruptCompaction scope "manifest" ("it names " ++ debug stored.scope))
  refuse (stored.checkpoint = 0 ∨ stored.chunks = [])
    (corruptCompaction scope "manifest" "it covers nothing")
  refuse (!stored.chunks.all isDigest)
    (corruptCompaction scope "manifest" "a chunk digest is not SHA-256 hex")
  return ⟨scope, stored.checkpoint, stored.chunks⟩

end CompactionManifest

inductive Expect where
  | any
  | absent
  | payload (payload : Bytes)
deriving DecidableEq

inductive CompactionWrite where
  | put (row : ViewRow) (expect : Expect)
  | delete (pk sk owner : String)
  | check (pk sk : String) (expect : Expect)
deriving DecidableEq

inductive CompactionWritten where
  | written
  | epochChanged
  | refused (index : Nat)
deriving DecidableEq

end EventStore
