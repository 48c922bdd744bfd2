import EventStore.Core.Aggregates

/-!
Enumeration of the event log: entities folded from their events, as a stream that is polled. A
log delivers batches, or is not ready yet; the stream keeps the step in flight until it is.
-/
namespace EventStore

structure StreamFilter where
  entityType : Option EntityType

inductive Poll (α : Type) where
  | pending
  | ready (a : α)

abbrev EventBatch := Except Error (List SerializedEvent)

/-- What each poll of a log's stream gives, and whether an entity comes in one batch. -/
structure EventLog where
  batchesByEntity : Bool
  streamAllEvents : StreamFilter → List (Poll EventBatch)

/-- Events grouped by entity, remembering which entity was seen first. -/
structure Group where
  order : List EntityId
  events : OrdMap EntityId (List SerializedEvent)

namespace Group

def empty : Group := ⟨[], ∅⟩

def push (group : Group) (event : SerializedEvent) : Group where
  order := if group.events.contains event.entityId then group.order
    else group.order ++ [event.entityId]
  events := group.events.insert event.entityId
    ((group.events[event.entityId]?).getD [] ++ [event])

def add (group : Group) (batch : List SerializedEvent) : Group := batch.foldl push group

def remove : List EntityId → OrdMap EntityId (List SerializedEvent) →
    List (EntityId × List SerializedEvent)
  | [], _ => []
  | id :: ids, events =>
    match events[id]? with
    | none => remove ids events
    | some found => (id, found) :: remove ids (events.erase id)

def take (group : Group) : List (EntityId × List SerializedEvent) := remove group.order group.events

end Group

section Entities

variable (A : Aggregate)

def foldEntity (id : EntityId) (events : List SerializedEvent) : Except Error (Loaded A) :=
  (Loaded.new id).replayAll (events.insertionSort fun a b => a.sequence ≤ b.sequence)

/-- The state between two entities. `events` is what is left of the log's polls. -/
structure Entities where
  events : List (Poll EventBatch)
  grouping : Bool
  group : Group
  ready : List (EntityId × List SerializedEvent)
  finished : Bool

/-- How a step towards the next entity ends: it waits for the log, yields an item, or there is
none. -/
inductive EntityStep where
  | waits (state : Entities)
  | yields (item : Except Error (Loaded A)) (state : Entities)
  | ends

def readyEntity (events : List (Poll EventBatch)) (grouping : Bool) :
    List (EntityId × List SerializedEvent) → EntityStep A
  | [] => .ends
  | (id, found) :: ready => .yields (foldEntity A id found) ⟨events, grouping, .empty, ready, true⟩

/-- Reads batches until an entity is ready. A step that waited goes on from here. -/
def readEntity (grouping : Bool) : List (Poll EventBatch) → Group → EntityStep A
  | [], group => readyEntity A [] grouping group.take
  | .pending :: events, group => .waits ⟨events, grouping, group, [], false⟩
  | .ready (.error error) :: events, _ =>
    .yields (.error error) ⟨events, grouping, .empty, [], true⟩
  | .ready (.ok batch) :: events, group =>
    if grouping then readEntity grouping events (group.add batch)
    else
      match (group.add batch).take with
      | [] => readEntity grouping events .empty
      | (id, found) :: ready =>
        .yields (foldEntity A id found) ⟨events, grouping, .empty, ready, false⟩

def nextEntity (state : Entities) : EntityStep A :=
  match state.ready with
  | (id, found) :: ready => .yields (foldEntity A id found) { state with ready }
  | [] => if state.finished then .ends else readEntity A state.grouping state.events state.group

/-- A stream with the state for the next step, or the step in flight, or neither at its end. -/
structure Unfold where
  state : Option Entities
  pending : Option Entities

namespace Unfold

def after (step : EntityStep A) : Poll (Option (Except Error (Loaded A))) × Unfold :=
  match step with
  | .waits state => (.pending, ⟨none, some state⟩)
  | .yields item state => (.ready (some item), ⟨some state, none⟩)
  | .ends => (.ready none, ⟨none, none⟩)

def pollNext (stream : Unfold) : Poll (Option (Except Error (Loaded A))) × Unfold :=
  match stream.pending with
  | some state => after A (nextEntity A state)
  | none =>
    match stream.state with
    | some state => after A (nextEntity A state)
    | none => (.ready none, stream)

def polls : Nat → Unfold → List (Poll (Option (Except Error (Loaded A)))) × Unfold
  | 0, stream => ([], stream)
  | n + 1, stream =>
    let (result, stream) := stream.pollNext A
    let (results, stream) := polls n stream
    (result :: results, stream)

end Unfold

def streamEntities (log : EventLog) (filter : StreamFilter) : Unfold :=
  let filter : StreamFilter := ⟨filter.entityType.or (some A.entityType)⟩
  ⟨some ⟨log.streamAllEvents filter, !log.batchesByEntity, .empty, [], false⟩, none⟩

end Entities

end EventStore
