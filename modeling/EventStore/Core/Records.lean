import EventStore.Lib.Maps

/-!
Identifiers, events, snapshots and metadata of the event log. Strings are ordered by their UTF-8
bytes. Sequences are integers, with the 64-bit bound where the source's arithmetic meets it
(`next`, `checkedNext`).
-/
namespace EventStore

abbrev EntityId := String
abbrev EntityType := String
abbrev EventType := String
abbrev EventId := String
abbrev CommandId := String
abbrev PrincipalId := String
abbrev Bytes := ByteArray

instance lawfulBEqByteArray : LawfulBEq ByteArray where
  eq_of_beq {a b} h := by
    have hdata : (a.data == b.data) = true := h
    exact ByteArray.ext (beq_iff_eq.mp hdata)
  rfl {a} := beq_self_eq_true a.data

def maxSequence : Int := 9223372036854775807

def EventSequence.next (s : Int) : Int := min (s + 1) maxSequence

def EventSequence.checkedNext (s : Int) : Option Int :=
  if s < maxSequence then some (s + 1) else none

theorem EventSequence.next_of_lt {s : Int} (h : s < maxSequence) :
    EventSequence.next s = s + 1 := by
  unfold EventSequence.next
  omega

theorem EventSequence.checkedNext_eq_some {s t : Int} :
    EventSequence.checkedNext s = some t ↔ s < maxSequence ∧ t = s + 1 := by
  unfold EventSequence.checkedNext
  split <;> simp_all [eq_comm]

def EventId.forEvent (entityId : EntityId) (sequence : Int) : EventId :=
  entityId ++ ":" ++ toString sequence

/-- Rust's debug form of a string: quoted and escaped. -/
def debug (text : String) : String := text.quote

structure Origin where
  source : String
  endpoint : String
deriving DecidableEq

structure Metadata where
  commandId : Option CommandId := none
  trace : Option (OrdMap String String) := none
  origin : Option Origin := none
  address : Option String := none
  region : String := ""
  timestamp : String := ""
  principalId : Option PrincipalId := none
  causationId : Option CommandId := none
  extensions : OrdMap String String := ∅
  commitId : String := ""
deriving DecidableEq

/-- The causation ID the stored encoding writes: the command's own ID unless
another one was set. -/
def Metadata.effectiveCausationId (m : Metadata) : Option CommandId :=
  m.causationId.or m.commandId

def Metadata.reread (m : Metadata) : Metadata :=
  { m with causationId := m.effectiveCausationId }

structure SerializedEvent where
  id : EventId
  sequence : Int
  eventType : EventType
  version : Int
  entityId : EntityId
  entityType : EntityType
  payload : Bytes
  metadata : Metadata
deriving DecidableEq

def SerializedEvent.reread (event : SerializedEvent) : SerializedEvent :=
  { event with metadata := event.metadata.reread }

structure SerializedSnapshot where
  entityType : EntityType
  entityId : EntityId
  sequence : Int
  eventSequence : Int
  payload : Bytes
deriving DecidableEq

end EventStore
