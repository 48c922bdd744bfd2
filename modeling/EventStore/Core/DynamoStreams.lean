import EventStore.Core.Heads
import EventStore.Core.Records

/-!
One stream's items in a DynamoDB table, with the transactions that write them: a commit's group,
and an out-of-band snapshot write guarded by the head item. Every item but the head's has the
`ttl` of its writer, if it has one.
-/
namespace EventStore.DynamoStream

structure HeadItem where
  head : Int
  ttl : Option Int
deriving DecidableEq

structure SnapshotItem where
  sequence : Int
  eventSeq : Int
  ttl : Option Int
deriving DecidableEq

structure EventItem where
  sequence : Int
  ttl : Option Int
deriving DecidableEq

structure Items where
  head : Option HeadItem := none
  snapshot : Option SnapshotItem := none
  events : List EventItem := []
deriving DecidableEq

/-- The `ttl` of an item in whole seconds; none without a retention or out of range. -/
def expiry (now : Int) (retention : Nat) : Option Int :=
  if retention = 0 ∨ now + retention < 0 ∨ maxSequence < (now + retention) / 1000000000 then none
  else some ((now + retention) / 1000000000)

def itemTtl (ttl : Option Int) : Option Int := ttl.filter (0 < ·)

inductive HeadAction
  | update (first last : Int) (ttl : Option Int)
  | refresh (new ttl : Int)
  | cover (new : Int)
deriving DecidableEq

namespace HeadAction

def snapshotGuard (new : Int) : Option Int → HeadAction
  | some ttl => if 0 < new then .refresh new ttl else .cover new
  | none => .cover new

def snapshotCover (new : Int) : HeadAction := .cover new

/-- The never-lower rule: no `ttl` is stored, or none above the new one. -/
def notAbove (item : HeadItem) (ttl : Int) : Bool := item.ttl.all (· ≤ ttl)

def passes : HeadAction → Option HeadItem → Bool
  | .update first _ ttl, item =>
    if first ≤ 1 then item.isNone
    else item.any fun item => item.head = first - 1 && ttl.all (notAbove item)
  | .refresh new ttl, item => item.any fun item => new ≤ item.head && notAbove item ttl
  | .cover new, item =>
    if 0 < new then item.any fun item => new ≤ item.head
    else item.all fun item => new ≤ item.head

def apply : HeadAction → Option HeadItem → Option HeadItem
  | .update _ last ttl, item => some ⟨last, ttl.or (item.bind (·.ttl))⟩
  | .refresh _ ttl, item => item.map fun item => { item with ttl := some ttl }
  | .cover _, item => item

end HeadAction

/-- A commit of events `first` to `last`, with the largest `ttl` its writer remembers. -/
structure Commit where
  first : Int
  last : Int
  valid : 1 ≤ first ∧ first ≤ last
  snapshot : Option Int
  ttl : Option Int
  loaded : Option Int

namespace Commit

def headTtl (c : Commit) : Option Int :=
  c.ttl.map fun own => if c.first ≤ 1 then own else max own (c.loaded.getD own)

def sequences (c : Commit) : List Int :=
  (List.range (c.last - c.first + 1).toNat).map fun (i : Nat) => c.first + i

def headUpdate (c : Commit) : HeadAction := .update c.first c.last c.headTtl

def snapshotPasses (c : Commit) (stored : Option SnapshotItem) : Bool :=
  match c.snapshot with
  | none => true
  | some sequence =>
    if sequence = 1 then stored.isNone else stored.any fun item => item.sequence = sequence - 1

end Commit

namespace Items

def commit (s : Items) (c : Commit) : Option Items :=
  if c.headUpdate.passes s.head && c.sequences.all (fun n => n ∉ s.events.map (·.sequence)) &&
      c.snapshotPasses s.snapshot then
    some
      { head := c.headUpdate.apply s.head
        snapshot := (c.snapshot.map fun sequence => ⟨sequence, c.last, itemTtl c.ttl⟩).or s.snapshot
        events := s.events ++ c.sequences.map fun n => ⟨n, itemTtl c.ttl⟩ }
  else none

def putSnapshot (s : Items) (guard : HeadAction) (item : SnapshotItem) : Option Items :=
  if guard.passes s.head && s.snapshot.all (fun stored => stored.eventSeq ≤ item.eventSeq) then
    some { s with
      head := guard.apply s.head
      snapshot := some { item with ttl := itemTtl item.ttl } }
  else none

def delete (s : Items) (sequence : Int) : Items :=
  { s with events := s.events.filter fun event => event.sequence ≠ sequence }

def storedHead (s : Items) : Int := (s.head.map (·.head)).getD 0

def coveredSequence (s : Items) : Int := (s.snapshot.map (·.eventSeq)).getD 0

def highestEvent (s : Items) : Int :=
  ((s.events.map (·.sequence)).filter (0 < ·)).foldl max 0

def derivedHead (s : Items) : Int := max s.highestEvent s.coveredSequence

end Items

/-- An out-of-band snapshot write: its item, its guard, and the retries so far. -/
structure SnapshotWrite where
  item : SnapshotItem
  refreshing : Bool := true
  retries : Nat := 0
  reading : Bool := false

def SnapshotWrite.guard (write : SnapshotWrite) : HeadAction :=
  if write.refreshing then .snapshotGuard write.item.eventSeq write.item.ttl
  else .snapshotCover write.item.eventSeq

inductive GuardRetry
  | refresh
  | cover
  | drift
deriving DecidableEq

def maxSnapshotGuardRetries : Nat := 4

def snapshotGuardRetry (stored : Option HeadItem) (snapshot : Int) (ttl : Option Int) :
    GuardRetry :=
  match stored with
  | none => .drift
  | some item =>
    if item.head < snapshot then .drift
    else if ttl.any fun ttl => item.ttl.all (· < ttl) then .refresh
    else .cover

namespace SnapshotWrite

def retry (write : SnapshotWrite) (refreshing : Bool) : Option SnapshotWrite :=
  if maxSnapshotGuardRetries ≤ write.retries then none
  else some { write with refreshing, retries := write.retries + 1, reading := false }

def afterRead (write : SnapshotWrite) (stored : Option HeadItem) : Option SnapshotWrite :=
  match snapshotGuardRetry stored write.item.eventSeq write.item.ttl with
  | .refresh => write.retry true
  | .cover => write.retry false
  | .drift => none

/-- What a write does when its guard failed: only a refreshing one is looked into. -/
def afterFailure (write : SnapshotWrite) : Option SnapshotWrite :=
  match write.guard with
  | .refresh _ _ => some { write with reading := true }
  | _ => none

end SnapshotWrite

inductive Probed
  | drift (stored derived : Int)
  | settled (stored : Int)
  | conflict
deriving DecidableEq

inductive Probing
  | start
  | covered (covered : Int)
  | derived (derived : Int)
  | ahead (stored : Int)
  | recovered (stored covered : Int)
  | remaining (stored derived : Int)
  | done (verdict : Probed)
deriving DecidableEq

/-- A stream with retention reads its remaining items before it is called drifted. -/
def Probing.afterDrift (retained : Bool) (stored derived : Int) : Probing :=
  if retained then .remaining stored derived else .done (.drift stored derived)

/-- The probe after its next read, given whether its repository expires the type. -/
def Probing.next (retained expired : Bool) (s : Items) : Probing → Probing
  | .start => .covered s.coveredSequence
  | .covered c => .derived (max s.highestEvent c)
  | .derived d =>
    match Probe.first s.storedHead d with
    | .settled => .done (.settled s.storedHead)
    | .drift =>
      if 0 < s.storedHead then .done (.drift s.storedHead d)
      else .afterDrift retained s.storedHead d
    | .ahead => if retained then .done .conflict else .ahead s.storedHead
  | .ahead stored => .recovered stored s.coveredSequence
  | .recovered stored c =>
    match Probe.afterRederive stored (max s.highestEvent c) with
    | .settled => .done .conflict
    | _ => .afterDrift retained stored (max s.highestEvent c)
  | .remaining stored d => .done (if expired then .conflict else .drift stored d)
  | .done verdict => .done verdict

end EventStore.DynamoStream
