import EventStore.Core.Validation

/-!
Go's enumeration of the in-memory store: one loop over all partitions, which takes an event of
another entity than the aggregate names for the end of a stream.
-/
namespace EventStore
namespace Partitions

structure Partition where
  id : EntityId
  events : List SerializedEvent
  snapshotType : EntityType

def memPartitionType (partition : Partition) : EntityType :=
  ((partition.events.find? (·.sequence ≠ 0)).map (·.entityType)).getD partition.snapshotType

structure StreamFilter where
  entityType : EntityType

def StreamFilter.matches (filter : StreamFilter) (entityType : EntityType) : Bool :=
  filter.entityType = "" || filter.entityType = entityType

inductive Yield (σ ε : Type)
  | ok (aggregate : σ)
  | err (error : ε)
deriving DecidableEq

def Yield.map {σ τ ε : Type} (f : σ → τ) : Yield σ ε → Yield τ ε
  | .ok aggregate => .ok (f aggregate)
  | .err error => .err error

section Loop

variable {σ ε : Type} (getId : σ → EntityId)
  (applyEvent : SerializedEvent → Option σ → Option σ × Option ε)

abbrev State (σ ε : Type) := Option σ × List (Yield σ ε)

def finishStream (event : SerializedEvent) : State σ ε → State σ ε
  | (some aggregate, sent) =>
    if event.entityId ≠ getId aggregate then (none, sent ++ [.ok aggregate])
    else (some aggregate, sent)
  | (none, sent) => (none, sent)

def takeEvent (state : State σ ε) (event : SerializedEvent) : State σ ε :=
  -- a snapshot among the events is skipped
  if event.sequence = 0 then state
  else
    let (aggregate, sent) := finishStream getId event state
    match applyEvent event aggregate with
    | (next, some error) => (next, sent ++ [.err error])
    | (next, none) => (next, sent)

def isVisited (filter : StreamFilter) (partition : Partition) : Bool :=
  !isReserved partition.id && filter.matches (memPartitionType partition)

/-- The partitions come in the order of the map's iteration. -/
def streamEntities (filter : StreamFilter) (partitions : List Partition) : List (Yield σ ε) :=
  let (aggregate, sent) := partitions.foldl (fun state partition =>
    if isVisited filter partition then partition.events.foldl (takeEvent getId applyEvent) state
    else state) (none, [])
  sent ++ (aggregate.map .ok).toList

end Loop

end Partitions
end EventStore
