import EventStore.Lib.Decimal
import EventStore.Memory.Writes
import EventStore.Core.Projection

/-!
The sync journal: each event of a journaled entity type takes the next position in each scope it
maps to. A row for each position and a counter for each scope are view operations of the commit.
The stored texts are a parameter.
-/
namespace EventStore

open Result

def maxPosition : Nat := 18446744073709551615

def maxScopeBytes : Nat := 512
def rowPartitionPrefix : String := "journal#"
def counterPartitionPrefix : String := "journal-counter#"
def counterSortKey : String := "COUNTER"

/-- The owner of every counter, which no stream can be. -/
def counterOwner : String := "SYSTEM#JOURNAL"
def rowEntityType : String := "journal"
def counterEntityType : String := "journal-counter"
def positionWidth : Nat := 20

structure Scope where
  text : String
  valid : text ≠ "" ∧ text.utf8ByteSize ≤ maxScopeBytes ∧ hasNul text = false
deriving DecidableEq

namespace Scope

def new (text : String) : Except Error Scope :=
  if hempty : text = "" then .error (.invalidJournal "a scope cannot be empty")
  else if hlong : maxScopeBytes < text.utf8ByteSize then
    .error (.invalidJournal ("a scope is at most " ++ toString maxScopeBytes ++ " bytes; " ++
      debug (String.ofList (text.toList.take 32)) ++ "... is " ++ toString text.utf8ByteSize))
  else if hnul : hasNul text = true then
    .error (.invalidJournal "a scope cannot contain U+0000")
  else .ok ⟨text, hempty, Nat.le_of_not_lt hlong, Bool.not_eq_true _ ▸ hnul⟩

def rowPk (scope : Scope) : String := rowPartitionPrefix ++ scope.text

def counterPk (scope : Scope) : String := counterPartitionPrefix ++ scope.text

end Scope

def rowSk (position : Nat) : String := Decimal.padded positionWidth position

structure Allocation where
  scope : String
  position : Nat
deriving DecidableEq

/-- The texts of the journal's stored values; an event that does not serialize has none. -/
structure JournalText where
  allocations : List Allocation → String
  readAllocations : String → Except String (List Allocation)
  row : String → Nat → SerializedEvent → Except Error Bytes
  readRow : Bytes → Except String (String × Nat × SerializedEvent)
  counter : String → Nat → Bytes
  readCounter : Bytes → Except String (String × Nat)

def setAllocations (T : JournalText) (event : SerializedEvent) (list : List Allocation) :
    SerializedEvent :=
  if list.isEmpty then CommitView.withoutAllocation event
  else
    { event with metadata := { event.metadata with
      extensions := event.metadata.extensions.insert CommitView.engineAllocationKey
        (T.allocations list) } }

def checkAllocation (a : Allocation) : Except Error Unit := do
  discard (Scope.new a.scope)
  refuse (a.position = 0) (.invalidJournal ("scope " ++ debug a.scope ++
    " has position 0; positions start at 1"))

def checkAscending : List Allocation → Except Error Unit
  | a :: b :: list => do
    refuse (b.scope ≤ a.scope) (.invalidJournal
      ("allocations must ascend by scope with no repeat; " ++ debug a.scope ++
        " is followed by " ++ debug b.scope))
    checkAscending (b :: list)
  | _ => .ok ()

def checkEachAllocation : List Allocation → Except Error Unit
  | [] => .ok ()
  | a :: list => do
    checkAllocation a
    checkEachAllocation list

def allocations (T : JournalText) (metadata : Metadata) : Except Error (List Allocation) :=
  match metadata.extensions[CommitView.engineAllocationKey]? with
  | none => .ok []
  | some text => do
    let list ← (T.readAllocations text).mapError fun err =>
      .invalidJournal ("the " ++ CommitView.engineAllocationKey ++ " metadata: " ++ err)
    checkEachAllocation list
    checkAscending list
    return list

def defaultMaxRowBytes : Nat := 30000
def defaultMaxAttempts : Nat := 5

/-- What is journaled, the row-size cap and the contention policy. -/
structure Journal where
  entityTypes : List EntityType
  nonempty : entityTypes ≠ []
  resolver : SerializedEvent → Except String (List Scope)
  maxRowBytes : Nat
  maxAttempts : Nat
  deadline : Bool

namespace Journal

def new (entityTypes : List EntityType) (resolver : SerializedEvent → Except String (List Scope)) :
    Except Error Journal :=
  let sorted := (entityTypes.dedup).insertionSort (· ≤ ·)
  if h : sorted = [] then .error (.invalidJournal "a journal covers at least one entity type")
  else .ok ⟨sorted, h, resolver, defaultMaxRowBytes, defaultMaxAttempts, false⟩

def covers (journal : Journal) (entityType : EntityType) : Bool :=
  journal.entityTypes.contains entityType

/-- The scopes of an event, ascending and without repeats, resolved without an allocation. -/
def scopesOf (journal : Journal) (event : SerializedEvent) : Except Error (List Scope) :=
  if !journal.covers event.entityType then .ok []
  else do
    let scopes ← (journal.resolver (CommitView.withoutAllocation event)).mapError fun err =>
      .invalidJournal ("the scope resolver failed for " ++ event.id ++ ": " ++ err)
    return scopes.dedup.insertionSort fun a b => a.text ≤ b.text

end Journal

def positionTaken (scope : String) (position : Nat) : String :=
  "position " ++ toString position ++ " of journal scope " ++ debug scope ++ " is already taken"

def journalProjectorName : String := "journal"

def encodeRow (T : JournalText) (scope : Scope) (position : Nat) (event : SerializedEvent) :
    Except Error Bytes :=
  T.row scope.text position event

def rowView (T : JournalText) (scope : Scope) (position : Nat) (event : SerializedEvent) :
    Except Error ViewRow := do
  return ⟨scope.rowPk, rowSk position, event.entityId, rowEntityType,
    ← encodeRow T scope position event, 0⟩

def counterPayload (T : JournalText) (scope : String) (position : Nat) : Bytes :=
  T.counter scope position

def counterView (T : JournalText) (scope : Scope) (position : Nat) : ViewRow :=
  ⟨scope.counterPk, counterSortKey, counterOwner, counterEntityType,
    counterPayload T scope.text position, 0⟩

structure JournalRow where
  scope : Scope
  position : Nat
  owner : EntityId
  event : SerializedEvent
deriving DecidableEq

section Projector

variable (E : Env) (T : JournalText)

def rowOperation (event : SerializedEvent) (a : Allocation) : Except String ViewOperation := do
  let scope ← (Scope.new a.scope).mapError E.errorText
  let payload ← (encodeRow T scope a.position event).mapError E.errorText
  return {
    ViewOperation.put scope.rowPk (rowSk a.position) event.entityId rowEntityType payload with
    condition := .absent
    conflict := some (positionTaken a.scope a.position) }

def rowOperations (event : SerializedEvent) : Except String (List ViewOperation) := do
  let list ← (allocations T event.metadata).mapError E.errorText
  list.mapM (rowOperation E T event)

def journalProjector (journal : Journal) : CommitProjector where
  name := journalProjectorName
  history := journal.entityTypes
  engineMetadata := true
  project := fun commit => do
    let rows ← (commit.streams.flatMap (·.events)).mapM (rowOperations E T)
    return rows.flatten

end Projector

/-- The scopes of one event take their next positions; `next` holds the positions the
commit has taken so far. -/
def allocateEvent (counters next : OrdMap String Nat) :
    List Scope → Except Error (List Allocation × OrdMap String Nat)
  | [] => .ok ([], next)
  | scope :: scopes => do
    let current := (next[scope.text]?.or counters[scope.text]?).getD 0
    refuse (maxPosition ≤ current)
      (.invalidJournal ("scope " ++ scope.text ++ " is out of positions"))
    let (list, next) ← allocateEvent counters (next.insert scope.text (current + 1)) scopes
    return (⟨scope.text, current + 1⟩ :: list, next)

def allocateFrom (counters next : OrdMap String Nat) :
    List (List Scope) → Except Error (List (List Allocation) × OrdMap String Nat)
  | [] => .ok ([], next)
  | scopes :: plan => do
    let (list, next) ← allocateEvent counters next scopes
    let (lists, next) ← allocateFrom counters next plan
    return (list :: lists, next)

def allocate (counters : OrdMap String Nat) (plan : List (List Scope)) :
    Except Error (List (List Allocation) × OrdMap String Nat) :=
  allocateFrom counters ∅ plan

namespace Request

def label : Request → EntityId
  | .commit c => c.entityId
  | .transaction t => (t.streams.head?.map (·.entityId)).getD ""

def eventStreams : Request → List (Nat × List SerializedEvent)
  | .commit c => if c.events.isEmpty then [] else [(0, c.events)]
  | .transaction t =>
    ((t.streams.zipIdx.filter fun stream => !stream.1.events.isEmpty).insertionSort
      fun a b => a.1.entityId ≤ b.1.entityId).map fun stream => (stream.2, stream.1.events)

def withEvents (streams : List (Nat × List SerializedEvent)) : Request → Request
  | .commit c => .commit { c with events := (streams.lookup 0).getD c.events }
  | .transaction t => .transaction { t with
      streams := t.streams.zipIdx.map fun (c, i) =>
        { c with events := (streams.lookup i).getD c.events } }

def commitViews : Request → List ProjectedView
  | .commit c => c.views
  | .transaction t => t.views

def withViews (views : List ProjectedView) : Request → Request
  | .commit c => .commit { c with views := c.views ++ views }
  | .transaction t => .transaction { t with views := t.views ++ views }

def validate (E : Env) : Request → Except Error Unit
  | .commit c => MemRepository.checkCommit E c
  | .transaction t => discard (t.normalize E)

end Request

/-- What each scope's counter row stores, and the position each scope allocates from. -/
structure Counters where
  stored : OrdMap String Nat
  base : OrdMap String Nat

section Stage

variable (E : Env) (T : JournalText) (journal : Journal)

def planEvents (events : List SerializedEvent) : Except Error (List (List Scope)) :=
  events.mapM journal.scopesOf

def Request.scopePlan (q : Request) : Except Error (List (List Scope)) :=
  planEvents journal (q.eventStreams.flatMap (·.2))

def assign : List (Nat × List SerializedEvent) → List (List Allocation) →
    List (Nat × List SerializedEvent)
  | [], _ => []
  | (i, events) :: streams, lists =>
    (i, List.zipWith (setAllocations T) events lists) ::
      assign streams (lists.drop events.length)

def measureRow (event : SerializedEvent) (widest : Option RowTooLarge) (a : Allocation) :
    Except Error (Option RowTooLarge) := do
  let scope ← Scope.new a.scope
  let size := (← encodeRow T scope a.position event).size
  if journal.maxRowBytes < size ∧ widest.all (·.size < size) then
    return some ⟨scope.text, a.position, event.id, size, journal.maxRowBytes⟩
  else return widest

def measureEvent (widest : Option RowTooLarge) (entry : SerializedEvent × List Allocation) :
    Except Error (Option RowTooLarge) :=
  entry.2.foldlM (measureRow T journal entry.1) widest

/-- Every row is measured before any is refused, so the error names the widest one. -/
def checkRows (events : List SerializedEvent) (lists : List (List Allocation)) :
    Except Error Unit := do
  match ← (events.zip lists).foldlM (measureEvent T journal) none with
  | some row => .error (.journalRowTooLarge row)
  | none => .ok ()

def journalCommitId (streams : List (List SerializedEvent)) : String :=
  ((streams.filterMap fun events => events.head?.map (·.metadata.commitId)).find?
    (· ≠ "")).getD ""

def journalCommitView (streams : List (List SerializedEvent)) : CommitView where
  commitId := journalCommitId streams
  streams := streams.filterMap fun events => events.head?.map fun first =>
    CommitStream.new first.entityId first.entityType events .empty

def counterOperation (counters : Counters) (scope : String) (position : Nat) : ViewOperation :=
  let put := { ViewOperation.put (counterPartitionPrefix ++ scope) counterSortKey counterOwner
      counterEntityType (counterPayload T scope position) with
    conflict := some (positionTaken scope position) }
  match counters.stored[scope]?.getD 0 with
  | 0 => { put with condition := .absent }
  | stored => { put with expectedPayload := some (counterPayload T scope stored) }

def counterViews (counters : Counters) (next : OrdMap String Nat) (rows : Nat) :
    List ProjectedView :=
  next.toList.zipIdx.map fun ((scope, position), i) =>
    ⟨journalProjectorName, 0, rows + i, counterOperation T counters scope position⟩

/-- Stages one attempt: positions, metadata, guards, and the rows and counters as views. -/
def stageJournal (q : Request) (plan : List (List Scope)) (counters : Counters) :
    Except Error Request := do
  let (lists, next) ← allocate counters.base plan
  let staged := assign T q.eventStreams lists
  checkRows T journal (staged.flatMap (·.2)) lists
  let rows ← projectCommit [journalProjector E T journal] (journalCommitView (staged.map (·.2)))
  let index := (q.commitViews.map (·.projectorIndex + 1)).foldl max 0
  let views := rows ++ counterViews T counters next rows.length
  return (q.withEvents staged).withViews
    (views.map fun view => { view with projectorIndex := index })

/-- The request without allocations: a forged one must not reach the log. -/
def Request.withoutAllocations (q : Request) : Request :=
  q.withEvents (q.eventStreams.map fun (i, events) =>
    (i, events.map CommitView.withoutAllocation))

end Stage

end EventStore
